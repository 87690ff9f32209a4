import Reckoner.Proofs.Grammar.Signs
import Reckoner.Proofs.Session.Assignments
import Reckoner.Proofs.Session.Definitions
import Reckoner.Proofs.Token.Rendered

/-!
Names in texts. What is accepted as a name is what a text may be split into as a name, so everything
that is registered under a name can be written, and every name that can be written and is not too
long can be assigned to.
-/

namespace Reckoner

open Registry (IsName)

namespace Token

variable {c : Char} {name : String}

theorem isDigit_eq_false_of_isStart (hc : Name.isStart c = true) : c.isDigit = false := by
  have hnine : '9'.val.toNat = 57 := rfl
  have hupper : 'A'.val.toNat = 65 := rfl
  have hlower : 'a'.val.toNat = 97 := rfl
  simp only [Name.isStart, Char.isAlpha, Char.isUpper, Char.isLower, Bool.or_eq_true,
    Bool.and_eq_true, decide_eq_true_eq, beq_iff_eq, ge_iff_le, UInt32.le_iff_toNat_le] at hc
  by_contra hdigit
  simp only [Char.isDigit, Bool.not_eq_false, Bool.and_eq_true, decide_eq_true_eq, ge_iff_le,
    UInt32.le_iff_toNat_le] at hdigit
  obtain rfl | hletter := hc
  · exact absurd hdigit.2 (by decide)
  · omega

theorem starts_of_isStart (hc : Name.isStart c = true) (cs : List Char) :
    Literal.starts (c :: cs) = false := by
  have hpoint : c ≠ '.' := by
    rintro rfl
    cases hc
  simpa [Literal.starts, hpoint] using isDigit_eq_false_of_isStart hc

/-- A name that is scanned is a valid one. -/
theorem Scans.isValid {afterOperand : Bool} {cs rest : List Char}
    (h : Scans afterOperand cs (.name name) rest) : Name.isValid name = true := by
  generalize hkind : Kind.name name = kind at h
  cases h with
  | name _ _ _ hstart =>
    obtain rfl := Kind.name.inj hkind
    rw [Name.isValid, String.toList_ofList, List.takeWhile_cons_of_pos (isPart_of_isStart hstart)]
    exact Bool.and_eq_true_iff.2 ⟨hstart, List.all_takeWhile⟩
  | @signed _ _ literal | @literal _ _ literal => cases literal <;> cases hkind
  | operator | string => cases hkind

/-- A valid name is scanned whole: it begins like no operator and no number. -/
theorem scans_name (h : Name.isValid name = true) {tail : List Char}
    (htail : ∀ c ∈ tail.head?, Name.isPart c = false) :
    Scans false (name.toList ++ tail) (.name name) tail := by
  have hparts := Name.forall_isPart h
  have htake : (name.toList ++ tail).takeWhile Name.isPart = name.toList := by
    rw [List.takeWhile_append_of_pos hparts]
    cases tail with
    | nil => simp
    | cons c tail => simp [htail c rfl]
  have hdrop : (name.toList ++ tail).dropWhile Name.isPart = tail := by
    rw [List.dropWhile_append_of_pos hparts]
    cases tail with
    | nil => rfl
    | cons c tail => simp [htail c rfl]
  cases hname : name.toList with
  | nil => simp [Name.isValid, hname] at h
  | cons c cs =>
    have hstart : Name.isStart c = true := by
      simp only [Name.isValid, hname, Bool.and_eq_true] at h
      exact h.1
    have hoperator := operatorScan_of_isPart (isPart_of_isStart hstart) (cs ++ tail)
    have hscans : Scans false (c :: (cs ++ tail)) _ _ :=
      .name (startsSigned_eq_false hoperator) hoperator (starts_of_isStart hstart _) hstart
    rwa [← List.cons_append, ← hname, htake, hdrop, String.ofList_toList, hname] at hscans

theorem readsBack_name (h : Name.isValid name = true) : (Kind.name name).ReadsBack := by
  have hscans : Scans false (name.toList ++ []) (.name name) [] := scans_name h nofun
  rwa [List.append_nil] at hscans

theorem isValid_of_mem {text : String} {tokens : List Token} {position : Nat}
    (h : tokenize text = .ok tokens) (hname : ⟨.name name, position⟩ ∈ tokens) :
    Name.isValid name = true := by
  obtain ⟨⟨after, hlexes⟩, -⟩ := lexes_of_tokenize h
  obtain ⟨before, cs, rest, hscan⟩ := hlexes.exists_scans_of_mem (List.mem_map_of_mem hname)
  exact hscan.isValid

theorem tokenize_of_isValid (h : Name.isValid name = true) :
    tokenize name = .ok [⟨.name name, 0⟩] := by
  have htokens := (readsBack_name h).tokenize (by rintro (h | h) <;> cases h)
  rwa [Kind.chars, String.ofList_toList] at htokens

end Token

/-! What is registered has a valid name. -/

namespace Scope

variable {s t : Scope} {name : String} {value : Value}

theorem isName_of_addGlobal (h : ∀ name ∈ s.names, IsName name)
    (hadd : s.addGlobal name value = .ok t) : ∀ name ∈ t.names, IsName name := by
  obtain ⟨checked, hcheck, ⟨⟩⟩ := Program.bind_eq_ok.1 hadd
  obtain ⟨hname, rfl⟩ := Registry.check_eq_ok.1 hcheck
  rw [names, List.map_append]
  exact List.forall_mem_append.2 ⟨h, List.forall_mem_singleton.2 hname⟩

theorem isName_withoutGlobal (h : ∀ name ∈ s.names, IsName name) (name : String) :
    ∀ other ∈ (s.withoutGlobal name).names, IsName other := by
  intro other hother
  rw [names_withoutGlobal] at hother
  exact h other (List.mem_of_mem_filter hother)

theorem isName_of_perform {op : Operation} (h : ∀ name ∈ s.names, IsName name)
    (hperform : s.perform op = .ok t) : ∀ name ∈ t.names, IsName name := by
  cases op with
  | set name value =>
    rw [perform, set] at hperform
    split at hperform
    · cases hperform
      exact h
    · split at hperform <;> cases hperform
      · exact h
      · rwa [names, names_overwrite]
    · exact isName_of_addGlobal h hperform
  | create name value =>
    rw [perform, create] at hperform
    split at hperform
    · cases hperform
      exact h
    · cases hperform
      rwa [names, names_overwrite]
    · exact isName_of_addGlobal h hperform
  | share name cell =>
    obtain ⟨checked, hcheck, ⟨⟩⟩ := Program.bind_eq_ok.1 hperform
    obtain ⟨hname, rfl⟩ := Registry.check_eq_ok.1 hcheck
    rw [names, List.map_append]
    exact List.forall_mem_append.2
      ⟨isName_withoutGlobal h name, List.forall_mem_singleton.2 hname⟩
  | remove name =>
    cases hperform
    exact isName_withoutGlobal h name
  | push | pop =>
    cases hperform
    exact h

theorem isName_of_run (h : ∀ name ∈ s.names, IsName name) (ops : List Operation) :
    ∀ name ∈ (s.run ops).names, IsName name := by
  induction ops generalizing s with
  | nil => exact h
  | cons op ops ih =>
    rw [run, List.foldl_cons, ← run]
    cases hperform : s.perform op with
    | ok t => exact ih (isName_of_perform h hperform)
    | error e => exact ih h

/-- An assignment to a valid name fails only where it would bind one that is too long. -/
theorem exists_set_iff (hvalid : Name.isValid name = true) (s : Scope) (value : Value) :
    (∃ t, s.set name value = .ok t) ↔
      s.contains name = true ∨ Text.byteLength name.toList ≤ Name.maxBytes := by
  cases hfind : s.find? name with
  | some v => simp [contains, hfind, exists_set_of_find? hfind]
  | none =>
    have hfit : s.set name value = (Name.fit name).map fun name =>
        { s with globals := s.globals ++ [⟨name, .own value⟩] } := by
      rw [set, hfind, addGlobal, Name.check, if_pos hvalid]
      rfl
    rw [hfit, Name.fit, contains, hfind]
    split <;> simp_all [Except.map]

end Scope

def Function.parameters (f : Function) : List String :=
  match f.body with
  | .formula parameters _ => parameters
  | _ => []

namespace Registry

variable {r : Registry} {f : Function}

/-- A formula with a bad parameter is refused. -/
theorem isName_of_mem_entries {op : Operation} (h : .registered f ∈ op.entries r) :
    ∀ parameter ∈ f.parameters, IsName parameter := by
  cases op with
  | builtins =>
    obtain ⟨⟨entry, number⟩, -, ⟨⟩⟩ := List.mem_map.1 h
    rintro _ ⟨⟩
  | add request =>
    rw [Operation.entries] at h
    split at h
    · next added rest hadd =>
      obtain ⟨⟩ := List.mem_singleton.1 h
      cases request with
      | native name signature call =>
        obtain ⟨_, -, hadd⟩ := Program.bind_eq_ok.1 hadd
        obtain ⟨_, -, ⟨⟩⟩ := Program.bind_eq_ok.1 hadd
        rintro _ ⟨⟩
      | object name signature own =>
        obtain ⟨_, -, hadd⟩ := Program.bind_eq_ok.1 hadd
        obtain ⟨_, -, ⟨⟩⟩ := Program.bind_eq_ok.1 hadd
        rintro _ ⟨⟩
      | formula name parameters text =>
        obtain ⟨_, hparameters, hadd⟩ := Program.bind_eq_ok.1 hadd
        obtain ⟨_, -, ⟨⟩⟩ := Program.bind_eq_ok.1 hadd
        obtain ⟨hnames, rfl⟩ := mapM_check_eq_ok.1 hparameters
        exact hnames
    · cases h
  | remove => cases List.mem_singleton.1 h
  | keep | forget | reset => cases h

theorem isName_of_mem_history {ops : List Operation} (h : .registered f ∈ history r ops) :
    ∀ parameter ∈ f.parameters, IsName parameter := by
  induction ops generalizing r with
  | nil => cases h
  | cons op ops ih =>
    obtain h | h := List.mem_append.1 h
    · exact isName_of_mem_entries h
    · exact ih h

/-- Keeping a program of a formula leaves its parameters. -/
theorem isName_of_mem_parameters {ops : List Operation} (hf : f ∈ (empty.after ops).functions) :
    ∀ parameter ∈ f.parameters, IsName parameter := by
  have haccounts := accounts_empty.after ops
  have hmem : f.uncompiled ∈ inForce (history empty ops) :=
    haccounts.functions ▸ List.mem_map_of_mem hf
  exact isName_of_mem_history (f := f.uncompiled) (registered_of_mem_inForce hmem)

end Registry

/-! What is written with a valid name. -/

namespace Grammar

variable {name : String}

theorem isReadFrom_name (h : Name.isValid name = true) :
    IsReadFrom name (.leaf ⟨.name name, 0⟩) := by
  have hparse : Tree.parse [⟨.name name, 0⟩] = .ok (.leaf ⟨.name name, 0⟩) := by cbv
  exact ⟨_, _, Token.tokenize_of_isValid h, hparse, rfl⟩

/-- A call without arguments. -/
theorem isReadFrom_call (h : Name.isValid name = true) :
    IsReadFrom (name ++ "()") (.node .suffix [.leaf ⟨.name name, 0⟩,
      .leaf ⟨.operator .openBracket, 0⟩, .leaf ⟨.operator .closeBracket, 0⟩]) := by
  have hspells : Token.Spells false (name ++ "()").toList
      [.name name, .operator .openBracket, .operator .closeBracket] := by
    intro tail _
    have htext : (name ++ "()").toList ++ tail = name.toList ++ '(' :: ')' :: tail := by simp
    have hopen : Token.Scans true ('(' :: ')' :: tail) (.operator .openBracket) (')' :: tail) :=
      .operator rfl rfl
    have hclose : Token.Scans false (')' :: tail) (.operator .closeBracket) tail :=
      .operator (by cases tail <;> rfl) rfl
    have hscan : Token.Scans false (name.toList ++ '(' :: ')' :: tail) (.name name) _ :=
      Token.scans_name h (by simp; decide)
    rw [htext]
    obtain ⟨c, cs, hcons⟩ := List.exists_cons_of_ne_nil (Name.isEntry_of_isValid h).ne_nil
    rw [hcons] at hscan ⊢
    exact ⟨_, .token hscan.isGap_eq_false hscan (.token rfl hopen (.token rfl hclose (.nil _ _)))⟩
  have hparse : Tree.parse [⟨.name name, 0⟩, ⟨.operator .openBracket, 0⟩,
      ⟨.operator .closeBracket, 0⟩] = .ok (.node .suffix [.leaf ⟨.name name, 0⟩,
        .leaf ⟨.operator .openBracket, 0⟩, .leaf ⟨.operator .closeBracket, 0⟩]) := by cbv
  obtain ⟨tokens, tree, htokens, htree, hunplaced, -⟩ :=
    exists_parse_of_spells hparse hspells rfl
  exact ⟨tokens, tree, htokens, htree, hunplaced⟩

def assignmentText (name content : String) : String :=
  name ++ " = " ++ Token.text ⟨.string content, 0⟩

theorem exists_parse_assignmentText (h : Name.isValid name = true) (content : String) :
    ∃ tokens tree, Token.tokenize (assignmentText name content) = .ok tokens ∧
      Tree.parse tokens = .ok tree ∧ ∀ registry, Program.compile registry tree =
        .ok [.name name, .value (.string content), .operator .assign] := by
  have hassign : (Token.Kind.operator .assign).ReadsBack := .operator rfl rfl
  have hspells := (Token.Spells.token (Token.readsBack_name h)).between hassign rfl (by decide)
    (Token.Spells.token (Token.readsBack_string content))
  have htext : (assignmentText name content).toList = (Token.Kind.name name).chars ++
      ' ' :: ((Token.Kind.operator .assign).chars ++ ' ' :: (Token.Kind.string content).chars) := by
    simp [assignmentText, Token.text, Token.chars, Token.Kind.chars, Operator.chars]
  rw [← htext] at hspells
  have hparse : Tree.parse [⟨.name name, 0⟩, ⟨.operator .assign, 0⟩, ⟨.string content, 0⟩] =
      .ok (.node .assignment [.leaf ⟨.name name, 0⟩, .leaf ⟨.operator .assign, 0⟩,
        .leaf ⟨.string content, 0⟩]) := by cbv
  obtain ⟨tokens, tree, htokens, htree, -, hcompile⟩ :=
    exists_parse_of_spells hparse hspells rfl
  refine ⟨tokens, tree, htokens, htree, fun registry => (hcompile registry).trans ?_⟩
  rw [Program.compile, Program.compile]
  rfl

end Grammar

namespace Machine

theorem run_assign {env : Environment} {scope : Scope} {x : String} {v : Value}
    (hset : env.scope.set x v = .ok scope) (fuel depth : Nat) (journal : List Event) :
    ∃ journal', run (fuel + 1) depth [.name x, .value v, .operator .assign] env journal =
      some (⟨[v], none⟩, { env with scope }, journal') := by
  have hassign : ∃ journal', assign [.value v, .name x] ⟨env, journal, FirstError.none⟩ =
      .done [.value v] ⟨{ env with scope }, journal', FirstError.none⟩ := by
    have hreported : IsReported [.value v, .name x] FirstError.none := by simp [IsReported]
    rcases assign_cases (s := ⟨env, journal, FirstError.none⟩) hreported with
      ⟨e, journal', herror, -⟩ |
      ⟨target, w, rest, scope', journal', hlook, htarget, hset', hdone⟩
    · have hresult : assignResult env [.value v, .name x] = .ok v := by
        change writeResult env x v = .ok v
        rw [writeResult, hset]
        rfl
      cases hresult.symm.trans herror
    · cases hlook
      cases htarget
      cases hset.symm.trans hset'
      exact ⟨journal', hdone⟩
  obtain ⟨journal', hassign⟩ := hassign
  refine ⟨journal', ?_⟩
  rw [run, runWith]
  simp only [perform_name, perform_value, perform_operator, perform_nil, operator, bind_eq, hassign]
  rfl

end Machine

namespace Session

theorem exists_evaluate_assignmentText {name : String} (h : Name.isValid name = true)
    (s : Session) (content : String) {scope : Scope}
    (hset : s.env.scope.set name (.string content) = .ok scope) :
    ∃ after, (∀ fuel, 1 ≤ fuel → s.evaluate fuel (Grammar.assignmentText name content) =
        some (.ok (.string content), after)) ∧ after.env.scope = scope := by
  obtain ⟨tokens, tree, htokens, htree, hcompile⟩ := Grammar.exists_parse_assignmentText h content
  obtain ⟨journal, hrun⟩ := Machine.run_assign hset 0 0 []
  obtain ⟨after, hexecute, henv⟩ := exists_execute hrun
  refine ⟨after, fun fuel hfuel => ?_, by rw [henv]⟩
  simp only [evaluate, compileText, htokens, htree, hcompile, reporting]
  exact hexecute fuel hfuel

/-- A text is a valid name just if it is split into one token, which is this name. So all variables,
functions and parameters that are registered can be written, and a name in any text can be assigned
to where it is bound already or is not too long. -/
theorem names_are_tokens :
    (∀ text, Name.isValid text = true ↔ Token.tokenize text = .ok [⟨.name text, 0⟩]) ∧
    (∀ cells ops, ∀ name ∈ (Scope.run { cells } ops).names,
      Grammar.IsReadFrom name (.leaf ⟨.name name, 0⟩)) ∧
    (∀ ops, ∀ f ∈ (Registry.empty.after ops).functions,
      Grammar.IsReadFrom (f.name ++ "()") (.node .suffix [.leaf ⟨.name f.name, 0⟩,
        .leaf ⟨.operator .openBracket, 0⟩, .leaf ⟨.operator .closeBracket, 0⟩]) ∧
      ∀ parameter ∈ f.parameters, Grammar.IsReadFrom parameter (.leaf ⟨.name parameter, 0⟩)) ∧
    ∀ text tokens, Token.tokenize text = .ok tokens →
      ∀ name position, ⟨.name name, position⟩ ∈ tokens →
        (∀ (scope : Scope) value, (∃ scope', scope.set name value = .ok scope') ↔
          scope.contains name = true ∨ Text.byteLength name.toList ≤ 64) ∧
        (Text.byteLength name.toList ≤ 64 → ∀ (s : Session) content,
          ∃ after, (∀ fuel, 1 ≤ fuel → s.evaluate fuel (Grammar.assignmentText name content) =
            some (.ok (.string content), after)) ∧
          s.env.scope.set name (.string content) = .ok after.env.scope) := by
  refine ⟨fun text => ⟨Token.tokenize_of_isValid, fun h => Token.isValid_of_mem h (.head _)⟩,
    fun cells ops name hname => ?_, fun ops f hf => ⟨?_, fun parameter hparameter => ?_⟩,
    fun text tokens htokens name position hname => ?_⟩
  · exact Grammar.isReadFrom_name (Scope.isName_of_run (by rintro _ ⟨⟩) ops name hname).1
  · exact Grammar.isReadFrom_call ((Registry.accounts_empty.after ops).isName hf).1
  · exact Grammar.isReadFrom_name (Registry.isName_of_mem_parameters hf parameter hparameter).1
  · have hvalid := Token.isValid_of_mem htokens hname
    refine ⟨fun scope value => Scope.exists_set_iff hvalid scope value, fun hshort s content => ?_⟩
    obtain ⟨scope, hset⟩ := (Scope.exists_set_iff hvalid s.env.scope (.string content)).2
      (.inr hshort)
    obtain ⟨after, hevaluate, rfl⟩ := exists_evaluate_assignmentText hvalid s content hset
    exact ⟨after, hevaluate, hset⟩

/-- A name behind an operator, in a session without variables. -/
theorem names_are_tokens_behind_operator :
    Token.tokenize "2*_x" =
        .ok [⟨.integer 2, 0⟩, ⟨.operator .times, 1⟩, ⟨.name "_x", 2⟩] ∧
      Text.byteLength "_x".toList ≤ 64 ∧
      ∃ after, (∀ fuel, 1 ≤ fuel → new.evaluate fuel "_x = \"a\"" =
          some (.ok (.string "a"), after)) ∧
        after.value? "_x" = some (.string "a") := by
  have htokens : Token.tokenize "2*_x" =
      .ok [⟨.integer 2, 0⟩, ⟨.operator .times, 1⟩, ⟨.name "_x", 2⟩] := by cbv
  have hshort : Text.byteLength "_x".toList ≤ 64 := by decide
  obtain ⟨after, hevaluate, hset⟩ :=
    (names_are_tokens.2.2.2 _ _ htokens "_x" 2 (by simp)).2 hshort new "a"
  have htext : Grammar.assignmentText "_x" "a" = "_x = \"a\"" := by decide
  rw [htext] at hevaluate
  refine ⟨htokens, hshort, after, hevaluate, ?_⟩
  have hvalue := Scope.get?_set ⟨by simp [new], by simp [new]⟩ hset "_x"
  exact hvalue

end Session

end Reckoner
