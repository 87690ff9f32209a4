import Reckoner.Proofs.Machine.Inversion
import Reckoner.Proofs.Machine.Raised
import Reckoner.Proofs.Machine.ReadOnly
import Reckoner.Proofs.Session.Lists

/-!
What an assignment writes. The name that is written to is the entry below the newest one, which is
the name on the left unless there are brackets around a comma list on the right. The value on the
right is given when the assignment succeeds, and nothing else is written.
-/

namespace Reckoner

def Tree.assignee (x : String) (tree : Tree) : Option String :=
  (tree.entries ++ [some x])[1]?.join

namespace Machine

open Program

variable {registry : Registry} {tree : Tree} {code : Program} {depth : Nat}

/-- What the run of an assignment comes to. It fails and writes nothing, or it writes the variable
that is below the value. -/
inductive ComesOut (x : String) (tree : Tree) (undecided : Prop) (env : Environment) :
    Execution → Environment → Prop where
  | failed {execution : Execution} (h : execution.failure.isSome) :
      ComesOut x tree undecided env execution env
  | written {execution : Execution} {target : String} {v : Value} {scope : Scope}
      (htarget : tree.assignee x = some target) (hset : env.scope.set target v = .ok scope)
      (hlast : execution.values.getLast? = some v)
      (hwhole : tree.width = 1 → ¬ undecided → execution.failure = none) :
      ComesOut x tree undecided env execution { env with scope }

theorem last_of_getLast? {execution : Execution} {v : Value} (hnone : execution.failure = none)
    (h : execution.values.getLast? = some v) : execution.last = .ok v := by
  simp only [Execution.last, Execution.all, hnone, Except.bind, Execution.lastOf, h]

theorem getLast?_of_collect {slots : List Slot} {v : Value} {values : List Value} {s t : State}
    (h : collect (slots ++ [.value v]) s = .done values t) : values.getLast? = some v := by
  induction slots generalizing s values with
  | nil =>
    cases h
    rfl
  | cons slot more ih =>
    rw [List.cons_append, collect] at h
    obtain ⟨read, u, -, h⟩ := bind_eq_done.1 h
    cases read with
    | none =>
      obtain ⟨_, _, -, h⟩ := bind_eq_done.1 h
      exact ih h
    | some w =>
      obtain ⟨others, _, hmore, h⟩ := bind_eq_done.1 h
      cases h
      rw [List.getLast?_cons, ih hmore]
      rfl

theorem assignee_of_isLeft {undecided : Prop} {x target : String} {s t : State}
    {stack rest : Stack} (h : IsLeft undecided tree.entries s stack t)
    (htarget : (stack ++ [Slot.name x]).drop 1 = .name target :: rest) :
    tree.assignee x = some target := by
  have hnames : tree.entries ++ [some x] = (stack ++ [Slot.name x]).map Slot.name? := by
    rw [List.map_append, h.entries]
    rfl
  have hsecond : (stack ++ [Slot.name x])[1]? = some (.name target) := by
    rw [← List.head?_drop, htarget, List.head?_cons]
  rw [Tree.assignee, hnames, List.getElem?_map, hsecond]
  rfl

/-- The values that are left behind an assignment. -/
theorem collect_of_assign {stack : Stack} {s : State} (h : IsReported stack s.failure) :
    (∃ values t, (assign stack >>= fun after => collect after.reverse) s = .done values t ∧
        t.env = s.env ∧ t.failure.isSet) ∨
      ∃ target v rest scope values t, look s.env stack = .ok v ∧
        stack.drop 1 = .name target :: rest ∧ s.env.scope.set target v = .ok scope ∧
        (assign stack >>= fun after => collect after.reverse) s = .done values t ∧
        t.env = { s.env with scope } ∧ values.getLast? = some v ∧
        (rest = [] → t.failure = s.failure) := by
  rcases assign_cases h with ⟨e, journal, -, hassign⟩ |
    ⟨target, v, rest, scope, journal, hlook, htarget, hset, hassign⟩
  · have hfailed : IsReported (.failed :: stack.drop 2) (s.failure.set e) :=
      fun _ => FirstError.isSet_set _ _
    obtain ⟨values, ⟨journal', hcollect⟩, -⟩ := @collect_eq ⟨s.env, journal, s.failure.set e⟩ _
      (hfailed.subset fun _ => List.mem_reverse.1)
    exact .inl ⟨values, _, bind_eq_done.2 ⟨_, _, hassign, hcollect⟩, rfl,
      FirstError.isSet_after_of_isSet (FirstError.isSet_set _ _) _⟩
  · have hdrop : stack.drop 2 = rest := by
      rw [← List.drop_drop (i := 1), htarget, List.drop_one, List.tail_cons]
    rw [hdrop] at hassign
    have hrest : ∀ slot ∈ rest, slot ∈ stack := fun slot hslot =>
      List.mem_of_mem_drop (hdrop ▸ hslot)
    have hwritten : IsReported (.value v :: rest) s.failure := fun hmem =>
      h (hrest _ ((List.mem_cons.1 hmem).resolve_left nofun))
    obtain ⟨values, ⟨journal', hcollect⟩, -⟩ := @collect_eq
      ⟨{ s.env with scope }, journal, s.failure⟩ _ (hwritten.subset fun _ => List.mem_reverse.1)
    refine .inr ⟨target, v, rest, scope, values, _, hlook, htarget, hset,
      bind_eq_done.2 ⟨_, _, hassign, hcollect⟩, rfl, ?_, ?_⟩
    · rw [List.reverse_cons] at hcollect
      exact getLast?_of_collect hcollect
    · rintro rfl
      rfl

theorem IsLeft.exists_slot {undecided : Prop} {s t : State} {stack : Stack}
    (h : IsLeft undecided tree.entries s stack t) (honly : tree.OnlyReads)
    (hwidth : tree.width = 1) : ∃ slot, stack = [slot] := by
  have hlength := congrArg List.length h.entries
  rw [List.length_map, Tree.length_entries honly, hwidth] at hlength
  exact List.length_eq_one_iff.1 hlength

/-- When there is one entry, it tells whether anything failed on the way, but for a condition. -/
theorem IsLeft.not_isSet {undecided : Prop} {entries : List (Option String)} {s t : State}
    {slot : Slot} {v : Value} (h : IsLeft undecided entries s [slot] t) (hnone : ¬ s.failure.isSet)
    (hlook : slot.look t.env = .ok v) (hdecided : ¬ undecided) : ¬ t.failure.isSet := by
  intro hset
  rcases h.failed hset with hset | hfailed | hundecided
  · exact hnone hset
  · obtain rfl := List.mem_singleton.1 hfailed
    cases hlook
  · exact hdecided hundecided

/-! What there is behind an assignment. -/

section ComesOut

variable {x : String} {undecided : Prop} {env after : Environment} {execution : Execution}

/-- A value that is given has been written. -/
theorem ComesOut.value_of_last (h : ComesOut x tree undecided env execution after)
    (howns : env.scope.OwnsAll) {v : Value} (hlast : execution.last = .ok v) :
    ∃ target, tree.assignee x = some target ∧ ∀ name,
      after.scope.get? name = if name = target then some v else env.scope.get? name := by
  have hnone : execution.failure = none := by
    by_contra hsome
    obtain ⟨e, he⟩ := Launch.last_of_isSome (Option.isSome_iff_ne_none.2 hsome)
    cases he.symm.trans hlast
  cases h with
  | failed hfailure =>
    rw [hnone] at hfailure
    cases hfailure
  | @written target w scope htarget hset hvalues hwhole =>
    cases (last_of_getLast? hnone hvalues).symm.trans hlast
    exact ⟨target, htarget, Scope.get?_set howns hset⟩

/-- No other name changes, whatever comes out. -/
theorem ComesOut.kept_of_ne (h : ComesOut x tree undecided env execution after)
    (howns : env.scope.OwnsAll) {name : String} (hname : tree.assignee x ≠ some name) :
    after.scope.get? name = env.scope.get? name := by
  cases h with
  | failed => rfl
  | @written target w scope htarget hset hvalues hwhole =>
    rw [Scope.get?_set howns hset, if_neg]
    intro heq
    rw [heq] at hname
    exact hname htarget

/-- Nothing is written when the assignment of one entry fails, if its conditions have values. -/
theorem ComesOut.eq_of_error (h : ComesOut x tree undecided env execution after)
    (hwidth : tree.width = 1) (hdecided : ¬ undecided) {e : Error}
    (hlast : execution.last = .error e) : after = env := by
  cases h with
  | failed => rfl
  | written htarget hset hvalues hwhole =>
    have hvalue := last_of_getLast? (hwhole hwidth hdecided) hvalues
    cases hvalue.symm.trans hlast

end ComesOut

/-- An assignment of a tree that only reads comes to an end. -/
theorem run_assignment (h : Emits registry tree code) (honly : tree.OnlyReads) (x : String)
    (depth : Nat) :
    ∃ enough, ∀ env journal, ∃ execution after journal',
      run enough depth ([.name x] ++ code ++ [.operator .assign]) env journal =
          some (execution, after, journal') ∧
        ComesOut x tree (IsUndecided registry depth env tree) env execution after := by
  obtain ⟨fuel, hrests⟩ := comesToRest_of_emits h honly depth
  refine ⟨fuel + 1, fun env journal => ?_⟩
  have hrests := hrests fuel le_rfl ⟨env, journal, FirstError.none⟩
  have hresult := Launch.result_eq_of_visits (Launch.visits_start
    ⟨fuel, depth, [.name x] ++ code ++ [.operator .assign], env, journal⟩)
  rw [Launch.outcome, Launch.start, List.append_assoc, List.singleton_append, perform_name,
    perform_emitted_operator h, bind_assoc, bind_eq] at hresult
  rw [Rests] at hrests
  split at hrests
  · next stack t hdone =>
    obtain ⟨henv, hleft⟩ := hrests
    have hreported : IsReported (stack ++ [.name x]) t.failure := fun hmem =>
      hleft.reported (by simpa using hmem)
    simp only [Launch.runner, hdone, operator] at hresult
    rcases collect_of_assign hreported with ⟨values, u, hwork, henv', hset⟩ |
      ⟨target, v, rest, scope, values, u, hlook, htarget, hset, hwork, henv', hlast, hwhole⟩
    · rw [hwork] at hresult
      exact ⟨_, _, _, hresult, henv'.trans henv ▸ .failed hset⟩
    · rw [hwork] at hresult
      refine ⟨_, _, _, hresult, ?_⟩
      obtain rfl : t.env = env := henv
      rw [henv']
      refine .written (assignee_of_isLeft hleft htarget) hset hlast fun hwidth hdecided => ?_
      obtain ⟨slot, rfl⟩ := hleft.exists_slot honly hwidth
      obtain rfl : [] = rest := (List.cons.inj htarget).2
      have hquiet := hleft.not_isSet Bool.false_ne_true hlook hdecided
      rw [← hwhole rfl, FirstError.isSet, Option.not_isSome_iff_eq_none] at hquiet
      exact hquiet
  · next e t hstopped =>
    simp only [Launch.runner, hstopped] at hresult
    exact ⟨_, _, _, hresult, hrests ▸ .failed rfl⟩
  · exact hrests.elim

/-- A run that gives a value, and one that fails, are not runs of one program. -/
theorem not_failsIn_of_run {fuel : Nat} {env env' : Environment} {journal journal' : List Event}
    {values : List Value}
    (h : run fuel depth code env journal = some (⟨values, none⟩, env', journal')) :
    ¬ FailsIn depth env code := by
  rintro ⟨fuel', other, execution, after, other', hfails, hfailure⟩
  have hboth :=
    runBeside_run (le_refl (max fuel fuel')) depth code env env journal other (.refl env)
  rw [run_of_le (le_max_left _ _) h, run_of_le (le_max_right _ _) hfails] at hboth
  cases hboth
  cases hfailure

end Machine

namespace Session

open Machine Program

variable {s : Session} {text x : String}

def HasValue (s : Session) (tree : Tree) : Prop :=
  ∃ code fuel v t, compile s.env.registry tree = .ok code ∧ s.execute fuel code = some (.ok v, t)

theorem exists_execute {enough : Nat} {program : Program} {result : Execution} {env : Environment}
    {journal : List Event}
    (h : Machine.run enough 0 program s.env [] = some (result, env, journal)) :
    ∃ after, (∀ fuel, enough ≤ fuel → s.execute fuel program = some (result.last, after)) ∧
      after.env = env := by
  obtain ⟨values, failure⟩ := result
  cases failure with
  | none =>
    refine ⟨{ s with env }, fun fuel hle => ?_, rfl⟩
    simp only [execute, executeAll, execution, run_of_le hle h, Option.map_some]
    rfl
  | some error =>
    refine ⟨Session.report { s with env } error, fun fuel hle => ?_, rfl⟩
    simp only [execute, executeAll, execution, run_of_le hle h, Option.map_some]
    rfl

theorem run_of_execute {fuel : Nat} {program : Program} {v : Value} {t : Session}
    (h : s.execute fuel program = some (.ok v, t)) :
    ∃ values env journal,
      Machine.run fuel 0 program s.env [] = some (⟨values, none⟩, env, journal) := by
  simp only [execute, executeAll, execution, Option.map_map] at h
  obtain ⟨⟨⟨values, failure⟩, env, journal⟩, hrun, hresult⟩ := Option.map_eq_some_iff.1 h
  cases failure with
  | none => exact ⟨values, env, journal, hrun⟩
  | some error => cases hresult

theorem not_isUndecided {tree : Tree} (h : ∀ condition ∈ tree.conditions, s.HasValue condition) :
    ¬ IsUndecided s.env.registry 0 s.env tree := by
  rintro ⟨condition, hcondition, code, hemits, hfails⟩
  obtain ⟨code', fuel, v, t, hcompile, hexecute⟩ := h condition hcondition
  cases (compile_of_emits hemits).symm.trans hcompile
  obtain ⟨values, env, journal, hrun⟩ := run_of_execute hexecute
  exact not_failsIn_of_run hrun hfails

theorem assignee_of_width {tree : Tree} (honly : tree.OnlyReads) (hwidth : tree.width = 1)
    (x : String) : tree.assignee x = some x := by
  obtain ⟨entry, hentry⟩ :=
    List.length_eq_one_iff.1 ((Tree.length_entries honly).trans hwidth)
  rw [Tree.assignee, hentry]
  rfl

/-- The code of an assignment is that of its right side. -/
theorem emits_assignment {registry : Registry} {left op : Token} {tree : Tree} {program : Program}
    (h : Emits registry (.node .assignment [.leaf left, .leaf op, tree]) program)
    (hname : left.name? = some x) (hop : op.operator? = some .assign) :
    ∃ code, Emits registry tree code ∧ program = [.name x] ++ code ++ [.operator .assign] := by
  cases h with
  | assign hname' _ hvalue =>
    cases hname.symm.trans hname'
    exact ⟨_, hvalue, rfl⟩
  | compound _ hop' hbase =>
    cases hop.symm.trans hop'
    cases hbase
  | operation hrule => exact absurd hrule (by decide)

/-- An assignment comes to an end, and writes nothing but one variable. When it gives a value, that
is the value of the variable afterwards. The variable is that on the left if the right side leaves
one entry, and then nothing is written when the assignment fails, unless a condition on the right
has no value. -/
theorem evaluate_assignment {position position' : Nat} {tree : Tree}
    (hread : (Tree.node .assignment [.leaf ⟨.name x, position⟩,
      .leaf ⟨.operator .assign, position'⟩, tree]).IsReadFrom text)
    (honly : tree.OnlyReads) (howns : s.env.scope.OwnsAll) :
    ∃ enough result after, (∀ fuel, enough ≤ fuel → s.evaluate fuel text = some (result, after)) ∧
      (∀ v, result = .ok v → ∃ target, tree.assignee x = some target ∧
        ∀ name, after.value? name = if name = target then some v else s.value? name) ∧
      (∀ error, result = .error error → ∀ name, tree.assignee x ≠ some name →
        after.value? name = s.value? name) ∧
      (tree.width = 1 → tree.assignee x = some x ∧
        ((∀ condition ∈ tree.conditions, s.HasValue condition) →
          ∀ error, result = .error error → ∀ name, after.value? name = s.value? name)) := by
  obtain ⟨tokens, htokens, hparse⟩ := hread
  simp only [evaluate, compileText, htokens, hparse]
  cases hcompile : compile s.env.registry _ with
  | error e =>
    refine ⟨0, .error e, s.report e, fun _ _ => rfl, fun v hv => ?_, fun _ _ _ _ => rfl,
      fun hwidth => ?_⟩
    · cases hv
    · exact ⟨assignee_of_width honly hwidth x, fun _ _ _ _ => rfl⟩
  | ok program =>
    obtain ⟨code, hemits, rfl⟩ := emits_assignment (emits_of_parse hparse hcompile) rfl rfl
    obtain ⟨enough, hrun⟩ := run_assignment hemits honly x 0
    obtain ⟨execution, env, journal, hrun, hcomes⟩ := hrun s.env []
    obtain ⟨after, hexecute, henv⟩ := exists_execute hrun
    have hvalue (name : String) : after.value? name = env.scope.get? name := by rw [value?, henv]
    refine ⟨enough, execution.last, after, hexecute, fun v hv => ?_, fun _ _ name hname => ?_,
      fun hwidth => ⟨assignee_of_width honly hwidth x, fun hconditions e he name => ?_⟩⟩
    · obtain ⟨target, htarget, hwritten⟩ := hcomes.value_of_last howns hv
      exact ⟨target, htarget, fun name => (hvalue name).trans (hwritten name)⟩
    · exact (hvalue name).trans (hcomes.kept_of_ne howns hname)
    · have hsame := hcomes.eq_of_error hwidth (not_isUndecided hconditions) he
      rw [hvalue, hsame, value?]

def withXY : Session :=
  { env := { scope := { globals := [⟨"x", .own (.integer 1)⟩, ⟨"y", .own (.integer 2)⟩] } } }

def pairOfY : Tree :=
  .node .group
    [.leaf ⟨.operator .openBracket, 4⟩,
     .node .list [.leaf ⟨.name "y", 5⟩, .leaf ⟨.operator .comma, 6⟩, .leaf ⟨.integer 5, 8⟩],
     .leaf ⟨.operator .closeBracket, 9⟩]

/-- The value goes to the variable beside it in the brackets. -/
theorem evaluate_assignment_pairOfY :
    pairOfY.OnlyReads ∧ withXY.env.scope.OwnsAll ∧
      ∃ enough after, (∀ fuel, enough ≤ fuel →
          withXY.evaluate fuel "x = (y, 5)" = some (.ok (.integer 5), after)) ∧
        after.value? "x" = some (.integer 1) ∧ after.value? "y" = some (.integer 5) := by
  have hread : (Tree.node .assignment [.leaf ⟨.name "x", 0⟩, .leaf ⟨.operator .assign, 2⟩,
      pairOfY]).IsReadFrom "x = (y, 5)" := ⟨_, by cbv, by cbv⟩
  have honly : pairOfY.OnlyReads := by decide
  have howns : withXY.env.scope.OwnsAll := ⟨by simp [withXY, Variable.IsOwned], by simp [withXY]⟩
  refine ⟨honly, howns, ?_⟩
  obtain ⟨enough, result, after, heval, hvalue, -⟩ := evaluate_assignment hread honly howns
  have hresult : (withXY.evaluate (enough + 1) "x = (y, 5)").map Prod.fst =
      some (.ok (.integer 5)) := by cbv
  rw [heval _ (Nat.le_succ enough)] at hresult
  obtain rfl := Option.some.inj hresult
  obtain ⟨target, htarget, hvalue⟩ := hvalue _ rfl
  obtain rfl : "y" = target := by
    have hassignee : pairOfY.assignee "x" = some "y" := by cbv
    exact Option.some.inj (hassignee.symm.trans htarget)
  refine ⟨enough, after, heval, (hvalue "x").trans ?_, hvalue "y"⟩
  cbv

end Session

end Reckoner
