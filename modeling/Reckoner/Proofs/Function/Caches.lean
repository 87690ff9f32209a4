import Mathlib.Data.List.Nodup
import Reckoner.Function.Builtin
import Reckoner.Machine.Run
import Reckoner.Proofs.Program.Clauses

/-!
Functions less their compiled programs. Compiling looks at no other compiled program, so a program
that was compiled for a registry stays right while only such programs come and go. Natives may look
at them, and those that do not are told apart here.
-/

namespace Reckoner

namespace Function

def uncompiled (f : Function) : Function := { f with compiled := none }

theorem eq_of_uncompiled {f g : Function} (h : f.uncompiled = g.uncompiled) :
    f = { g with compiled := f.compiled } := by
  obtain ⟨id, name, body, signature, builtin, compiled⟩ := f
  obtain ⟨id', name', body', signature', builtin', compiled'⟩ := g
  cases h
  rfl

theorem id_eq_of_uncompiled {f g : Function} (h : f.uncompiled = g.uncompiled) : f.id = g.id := by
  rw [eq_of_uncompiled h]

theorem name_eq_of_uncompiled {f g : Function} (h : f.uncompiled = g.uncompiled) :
    f.name = g.name := by
  rw [eq_of_uncompiled h]

theorem body_eq_of_uncompiled {f g : Function} (h : f.uncompiled = g.uncompiled) :
    f.body = g.body := by
  rw [eq_of_uncompiled h]

/-- The function gives the same when the session is shown with this change. -/
def Ignores (f : Function) (change : View → View) : Prop :=
  ∀ view, f.invoke (change view) = f.invoke view

theorem ignores_of_isFormula {f : Function} (h : f.isFormula) (change : View → View) :
    f.Ignores change := by
  intro view
  funext args
  unfold isFormula at h
  unfold invoke
  split at h
  · next hbody => rw [hbody]
  · cases h

theorem ignores_uncompiled {f : Function} {change : View → View} :
    f.uncompiled.Ignores change ↔ f.Ignores change := .rfl

end Function

namespace View

def uncompiled (view : View) : View :=
  { view with functions := view.functions.map fun f => { f with compiled := none } }

def withNames (view : View) (names : List String) : View := { view with names }

def withLimit (view : View) (maxDepth : Option Nat) : View := { view with maxDepth }

end View

theorem Builtin.ignores {entry : String × Signature × Native} (h : entry ∈ Builtin.table)
    {view view' : View} (hswitches : view.switches = view'.switches) :
    entry.2.2 view = entry.2.2 view' := by
  have htrigonometric (f : Float → Float) : trigonometric f view = trigonometric f view' := by
    unfold trigonometric
    rw [hswitches]
  simp only [table, List.mem_cons, List.not_mem_nil, or_false] at h
  rcases h with rfl | rfl | rfl | rfl | rfl | rfl | rfl | rfl | rfl | rfl | rfl
  all_goals first
    | rfl
    | exact htrigonometric _

namespace Registry

open Reckoner.Function

variable {r r' : Registry}

theorem reset_functions (r : Registry) : r.reset.functions = r.functions.map uncompiled := rfl

theorem named_reset (r : Registry) (name : String) :
    r.reset.named name = (r.named name).map uncompiled := by
  rw [named, reset_functions, List.filter_map]
  rfl

theorem find?_reset (r : Registry) (id : FunctionId) :
    r.reset.find? id = (r.find? id).map uncompiled := by
  rw [find?, reset_functions, List.find?_map]
  rfl

/-- No function takes notice of the change. -/
def Ignores (r : Registry) (change : View → View) : Prop := ∀ f ∈ r.functions, f.Ignores change

theorem ignores_of_isFormula (h : ∀ f ∈ r.functions, f.isFormula) (change : View → View) :
    r.Ignores change :=
  fun f hf => Function.ignores_of_isFormula (h f hf) change

theorem ignores_reset {change : View → View} : r.reset.Ignores change ↔ r.Ignores change := by
  rw [Ignores, reset_functions, List.forall_mem_map]
  rfl

/-- Behind a registration each function was there before or is the new one. -/
theorem mem_insert {name : String} {body : Function.Body} {signature : Signature}
    {builtin overload : Bool} {g : Function}
    (hg : g ∈ (r.insert name body signature builtin overload).2.functions) :
    (∃ f ∈ r.functions, f.uncompiled = g.uncompiled) ∨
      g = (r.insert name body signature builtin overload).1 := by
  rcases List.mem_append.1 hg with hg | hg
  · obtain ⟨f, hf, rfl⟩ := List.mem_map.1 hg
    refine .inl ⟨f, ?_, rfl⟩
    split at hf
    · exact hf
    · exact List.mem_of_mem_filter hf
  · exact .inr (List.mem_singleton.1 hg)

/-- What holds of all builtin functions, whether it is compiled or not, holds of those that a
session starts with. -/
theorem forall_mem_register {P : Function → Prop}
    (huncompiled : ∀ f g : Function, f.uncompiled = g.uncompiled → P f → P g)
    (htable : ∀ entry ∈ Builtin.table, ∀ f : Function, f.body = .native entry.2.2 → P f) :
    ∀ f ∈ (Builtin.register empty).functions, P f := by
  unfold Builtin.register
  refine List.foldlRecOn (motive := fun r : Registry => ∀ f ∈ r.functions, P f) Builtin.table _
    (by simp [empty]) fun r hr entry hentry f hf => ?_
  rcases mem_insert hf with ⟨g, hg, hsame⟩ | rfl
  · exact huncompiled g f hsame (hr g hg)
  · exact htable entry hentry _ rfl

/-- The functions that a session starts with take notice of nothing but the switches. -/
theorem ignores_register {change : View → View}
    (hchange : ∀ view, (change view).switches = view.switches) :
    (Builtin.register empty).Ignores change := by
  refine forall_mem_register (fun f g hsame hf => ?_) fun entry hentry f hbody view => ?_
  · rw [← ignores_uncompiled, ← hsame]
    exact hf
  · funext args
    rw [invoke, invoke, hbody]
    exact congrFun (Builtin.ignores hentry (hchange view)) args

theorem map_listing_reset (r : Registry) :
    r.reset.functions.map listing =
      (r.functions.map listing).map fun f => { f with compiled := none } := by
  rw [reset_functions, List.map_map, List.map_map]
  rfl

theorem reset_modify {change : Function → Function}
    (hchange : ∀ f, (change f).uncompiled = f.uncompiled) (r : Registry) (id : FunctionId) :
    (r.modify id change).reset = r.reset := by
  have hone : ∀ f : Function, (if f.id = id then change f else f).uncompiled = f.uncompiled := by
    intro f
    split
    · exact hchange f
    · rfl
  simp only [modify, reset, List.map_map, Registry.mk.injEq, and_true]
  exact List.map_congr_left fun f _ => hone f

theorem reset_setCompiled (r : Registry) (id : FunctionId) (program : Program) :
    (r.setCompiled id program).reset = r.reset := by
  refine reset_modify (fun f => ?_) r id
  rfl

/-- A formula without a program keeps the one that its text compiles to, if it compiles. -/
def keeping (r : Registry) (f : Function) (compiled : Except Error Program) : Registry :=
  match f.compiled, compiled with
  | none, .ok program => r.setCompiled f.id program
  | _, _ => r

theorem reset_reset (r : Registry) : r.reset.reset = r.reset := by
  simp only [reset, List.map_map]
  rfl

end Registry

namespace Program

open Reckoner.Function

variable {r r' : Registry}

theorem choose_reset (r : Registry) (name : String) (count : Nat) :
    choose r.reset name count = (choose r name count).map uncompiled := by
  have hcandidates : ((r.reset.named name).find? fun f => f.signature.accepts count).or
        (r.reset.named name).getLast? =
      (((r.named name).find? fun f => f.signature.accepts count).or
        (r.named name).getLast?).map uncompiled := by
    rw [Registry.named_reset, List.find?_map, List.getLast?_map, Option.map_or]
    rfl
  simp only [choose, hcandidates]
  cases ((r.named name).find? fun f => f.signature.accepts count).or (r.named name).getLast? <;> rfl

def SameChoices (r r' : Registry) : Prop :=
  ∀ name count, (choose r name count).map uncompiled = (choose r' name count).map uncompiled

theorem sameChoices_of_reset_eq (h : r.reset = r'.reset) : SameChoices r r' := by
  intro name count
  rw [← choose_reset, ← choose_reset, h]

theorem compileCall_congr (h : SameChoices r r') {callee : Tree} {args : List Tree}
    (hargs : compileAll r args = compileAll r' args) :
    compileCall r callee args = compileCall r' callee args := by
  rw [compileCall, compileCall, hargs]
  cases callee.name? with
  | none => rfl
  | some name =>
    have hchoice := h name args.length
    simp only [bind, Except.bind]
    cases hr : choose r name args.length with
    | error e =>
      cases hr' : choose r' name args.length with
      | error e' =>
        rw [hr, hr'] at hchoice
        exact congrArg Except.error (Except.error.inj hchoice)
      | ok f' =>
        rw [hr, hr'] at hchoice
        cases hchoice
    | ok f =>
      cases hr' : choose r' name args.length with
      | error e' =>
        rw [hr, hr'] at hchoice
        cases hchoice
      | ok f' =>
        rw [hr, hr'] at hchoice
        rw [eq_of_uncompiled (Except.ok.inj hchoice)]
        rfl

mutual

theorem compile_congr (h : SameChoices r r') : (tree : Tree) → compile r tree = compile r' tree
  | .leaf token => by rw [compile, compile]
  | .node rule children => by
    unfold compile
    split
    · rfl
    · next left _ right heq =>
      cases heq
      rw [compile_congr h left, compile_congr h right]
    · next left _ right heq =>
      cases heq
      rw [compile_congr h right]
    · next condition _ first _ second heq =>
      cases heq
      rw [compile_congr h condition, compile_congr h first, compile_congr h second]
    · next _ operand heq =>
      cases heq
      rw [compile_congr h operand]
    · rfl
    · exact compileCall_congr h (by rw [compileAll, compileAll])
    · next name _ rule args _ heq =>
      cases heq
      exact compileCall_congr h (compileAll_congr h args)
    · exact compileCall_congr h (by rw [compileAll, compileAll])
    · next _ inner _ heq =>
      cases heq
      exact compile_congr h inner
    · next left _ right _ _ _ _ heq =>
      cases heq
      rw [compile_congr h left, compile_congr h right]
    · rfl

theorem compileAll_congr (h : SameChoices r r') :
    (trees : List Tree) → compileAll r trees = compileAll r' trees
  | [] => by rw [compileAll, compileAll]
  | tree :: more => by rw [compileAll, compileAll, compile_congr h tree, compileAll_congr h more]

end

/-- A call is of a function that is registered under the name it is called by. -/
theorem exists_function_of_choose {name : String} {count : Nat} {f : Function}
    (h : choose r name count = .ok f) : f ∈ r.functions ∧ f.name = name := by
  have hnamed : f ∈ r.named name := by
    simp only [choose] at h
    split at h
    · next g hg =>
      cases h
      rcases Option.or_eq_some_iff.1 hg with hfirst | ⟨-, hlast⟩
      · exact List.mem_of_find?_eq_some hfirst
      · exact List.mem_of_getLast? hlast
    · cases h
  simpa [Registry.named] using hnamed

/-- Every call in emitted code is of a registered function. -/
theorem exists_function_of_emits {tree : Tree} {code : Program} (h : Emits r tree code)
    {name : String} {target : Option FunctionId} (hcall : .call name target ∈ code) :
    ∃ f ∈ r.functions, f.name = name ∧ target = some f.id := by
  induction h with
  | @leaf token code h =>
    unfold ofToken at h
    split at h <;> cases h <;> simp at hcall
  | list _ _ _ ihl ihr =>
    simp only [List.mem_append, List.mem_singleton, reduceCtorEq, or_false] at hcall
    exact hcall.elim ihl ihr
  | assign _ _ _ _ ih | compound _ _ _ _ _ ih | prefixed _ _ _ _ _ ih =>
    simp only [List.mem_append, List.mem_cons, List.not_mem_nil, reduceCtorEq, or_false,
      false_or] at hcall
    exact ih hcall
  | choice _ _ _ _ _ iha ihb ihc =>
    simp only [List.mem_append, List.mem_cons, List.not_mem_nil, reduceCtorEq, or_false,
      false_or] at hcall
    rcases hcall with (hcall | hcall) | hcall
    · exact iha hcall
    · exact ihb hcall
    · exact ihc hcall
  | stepFirst | stepAfter => simp [step, undo] at hcall
  | @emptyCall token left right callee f added _ hf hadded =>
    rw [eq_replicate_of_omitted hadded] at hcall
    obtain ⟨hmem, hname⟩ := exists_function_of_choose hf
    simp only [List.mem_append, List.mem_singleton, List.mem_replicate, reduceCtorEq, and_false,
      false_or, Instruction.call.injEq] at hcall
    exact ⟨f, hmem, hname.trans hcall.1.symm, hcall.2⟩
  | @call token left right callee f args added _ hf _ _ hadded ih =>
    rw [eq_replicate_of_omitted hadded] at hcall
    obtain ⟨hmem, hname⟩ := exists_function_of_choose hf
    simp only [List.mem_append, List.mem_singleton, List.mem_replicate, reduceCtorEq, and_false,
      false_or, or_false, Instruction.call.injEq, List.mem_flatMap] at hcall
    rcases hcall with ⟨arg, harg, hcall⟩ | hcall
    · exact ih arg harg hcall
    · exact ⟨f, hmem, hname.trans hcall.1.symm, hcall.2⟩
  | group _ ih => exact ih hcall
  | operation _ _ _ _ _ _ _ ihl ihr =>
    simp only [List.mem_append, List.mem_singleton, reduceCtorEq, or_false] at hcall
    exact hcall.elim ihl ihr

end Program

namespace Machine

open Program

theorem compileText_congr {r r' : Registry} (h : r.reset = r'.reset) (text : String) :
    compileText r text = compileText r' text := by
  have hcompile : compile r = compile r' :=
    funext fun tree => compile_congr (sameChoices_of_reset_eq h) tree
  rw [compileText, compileText, hcompile]

theorem emits_of_compileText {r : Registry} {text : String} {program : Program}
    (h : compileText r text = .ok program) : ∃ tree, Emits r tree program := by
  obtain ⟨tokens, -, h⟩ := bind_eq_ok.1 h
  obtain ⟨tree, htree, hcompile⟩ := bind_eq_ok.1 h
  exact ⟨tree, emits_of_parse (mapError_eq_ok.1 htree) hcompile⟩

end Machine

namespace Registry

open Reckoner.Function Machine

/-- Functions are told apart by their numbers, and every compiled program is what the text of its
formula compiles to now. -/
structure Coherent (r : Registry) : Prop where
  distinct : (r.functions.map Function.id).Nodup
  numbered : ∀ f ∈ r.functions, f.id.number < r.next
  cached : ∀ f ∈ r.functions, ∀ program, f.compiled = some program →
    ∃ parameters text, f.body = .formula parameters text ∧ compileText r text = .ok program

variable {r r' : Registry}

theorem coherent_empty : empty.Coherent := ⟨List.nodup_nil, nofun, nofun⟩

/-- Nothing is compiled after a change, so only the numbers matter. -/
theorem Coherent.reset_of_subset (h : r.Coherent) {functions : List Function}
    (hsub : functions.Sublist r.functions) :
    ({ r with functions } : Registry).reset.Coherent := by
  refine ⟨?_, ?_, ?_⟩
  · rw [reset_functions, List.map_map]
    exact (hsub.map Function.id).nodup h.distinct
  · intro f hf
    obtain ⟨g, hg, rfl⟩ := List.mem_map.1 hf
    exact h.numbered g (hsub.subset hg)
  · intro f hf program hprogram
    obtain ⟨g, -, rfl⟩ := List.mem_map.1 hf
    cases hprogram

theorem coherent_reset (h : r.Coherent) : r.reset.Coherent :=
  h.reset_of_subset (List.Sublist.refl _)

theorem coherent_insert (h : r.Coherent) (name : String) (body : Body) (signature : Signature)
    (builtin overload : Bool) : (r.insert name body signature builtin overload).2.Coherent := by
  have hkept : (if overload then r else r.without name).reset.Coherent := by
    split
    · exact coherent_reset h
    · exact h.reset_of_subset List.filter_sublist
  have hnext : (if overload then r else r.without name).reset.next = r.next := by
    split <;> rfl
  refine ⟨?_, ?_, ?_⟩
  · simp only [insert, List.map_append, List.map_cons, List.map_nil]
    refine List.nodup_append.2 ⟨hkept.distinct, by simp, ?_⟩
    intro id hid other hother heq
    obtain ⟨g, hg, rfl⟩ := List.mem_map.1 hid
    have hlt := hkept.numbered g hg
    rw [hnext] at hlt
    rw [List.mem_singleton.1 hother] at heq
    rw [heq] at hlt
    exact Nat.lt_irrefl _ hlt
  · intro f hf
    rcases List.mem_append.1 hf with hf | hf
    · have hlt := hkept.numbered f hf
      rw [hnext] at hlt
      exact Nat.lt_succ_of_lt hlt
    · obtain rfl := List.mem_singleton.1 hf
      exact Nat.lt_succ_self _
  · intro f hf program hprogram
    rcases List.mem_append.1 hf with hf | hf
    · obtain ⟨g, -, rfl⟩ := List.mem_map.1 hf
      cases hprogram
    · obtain rfl := List.mem_singleton.1 hf
      cases hprogram

theorem coherent_remove (h : r.Coherent) (name : String) : (r.remove name).2.Coherent := by
  unfold remove
  split
  · exact h.reset_of_subset List.filter_sublist
  · exact h

/-- The programs of other functions stay right when those of one function change. -/
theorem Coherent.modify (h : r.Coherent) {id : FunctionId} {change : Function → Function}
    (hchange : ∀ f, (change f).uncompiled = f.uncompiled)
    (hcached : ∀ f ∈ r.functions, f.id = id → ∀ program, (change f).compiled = some program →
      ∃ parameters text, f.body = .formula parameters text ∧ compileText r text = .ok program) :
    (r.modify id change).Coherent := by
  have hid : ∀ f : Function, (if f.id = id then change f else f).id = f.id := by
    intro f
    split
    · exact id_eq_of_uncompiled (hchange f)
    · rfl
  have hids : (r.modify id change).functions.map Function.id = r.functions.map Function.id := by
    simp only [Registry.modify, List.map_map]
    exact List.map_congr_left fun f _ => hid f
  have htexts : ∀ text, compileText (r.modify id change) text = compileText r text :=
    compileText_congr (reset_modify hchange r id)
  refine ⟨hids ▸ h.distinct, ?_, ?_⟩
  · intro f hf
    obtain ⟨g, hg, rfl⟩ := List.mem_map.1 hf
    rw [hid]
    exact h.numbered g hg
  · intro f hf program hprogram
    obtain ⟨g, hg, rfl⟩ := List.mem_map.1 hf
    simp only [htexts]
    by_cases heq : g.id = id
    · rw [if_pos heq] at hprogram ⊢
      obtain ⟨parameters, text, hbody, htext⟩ := hcached g hg heq program hprogram
      exact ⟨parameters, text, (body_eq_of_uncompiled (hchange g)).trans hbody, htext⟩
    · rw [if_neg heq] at hprogram ⊢
      exact h.cached g hg program hprogram

theorem coherent_resetOne (h : r.Coherent) (id : FunctionId) : (r.resetOne id).Coherent := by
  refine h.modify (fun f => ?_) ?_
  · rfl
  · intro f _ _ program hprogram
    cases hprogram

theorem Coherent.eq_of_id_eq (h : r.Coherent) {f g : Function} (hf : f ∈ r.functions)
    (hg : g ∈ r.functions) (hid : f.id = g.id) : f = g :=
  List.inj_on_of_nodup_map h.distinct hf hg hid

/-- A formula may keep what its text compiles to. -/
theorem coherent_setCompiled (h : r.Coherent) {f : Function} (hf : f ∈ r.functions)
    {parameters : List String} {text : String} {program : Program}
    (hbody : f.body = .formula parameters text) (hprogram : compileText r text = .ok program) :
    (r.setCompiled f.id program).Coherent := by
  refine h.modify (fun f => ?_) ?_
  · rfl
  · intro g hg hid program' hprogram'
    rw [h.eq_of_id_eq hg hf hid]
    cases hprogram'
    exact ⟨parameters, text, hbody, hprogram⟩

/-- A function is found by its number while it is registered. -/
theorem Coherent.find?_eq (h : r.Coherent) {f : Function} (hf : f ∈ r.functions) :
    r.find? f.id = some f := by
  cases hfind : r.find? f.id with
  | none =>
    have hnone := List.find?_eq_none.1 hfind f hf
    simp at hnone
  | some g =>
    have hid : g.id = f.id := by simpa using List.find?_some hfind
    rw [h.eq_of_id_eq (List.mem_of_find?_eq_some hfind) hf hid]

end Registry

end Reckoner
