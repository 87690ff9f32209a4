import Mathlib
import Reckoner.Proofs.Program.Parts

/-!
Which function a call means. Of the functions of a name, the first that accepts so many arguments
is chosen, and the last one when none does. What may be left out counts only for the function that
is chosen: a set of overloads is passed by, although one of them could take the call, when no
overload accepts it and the last one cannot take it either.
-/

namespace Reckoner

namespace Program

open Reckoner.Tree

variable {registry : Registry} {name : String} {count : Nat} {f g : Function} {error : Error}

/-- The function that a call means: the first of the name that accepts so many arguments, or the
last of the name when none of them does. -/
inductive IsChosen (registry : Registry) (name : String) (count : Nat) (f : Function) : Prop where
  | first {before after : List Function} (hsplit : registry.functions = before ++ f :: after)
      (hname : f.name = name) (haccepts : f.signature.accepts count)
      (hbefore : ∀ g ∈ before, g.name = name → ¬ g.signature.accepts count)
  | last {before after : List Function} (hsplit : registry.functions = before ++ f :: after)
      (hname : f.name = name) (hafter : ∀ g ∈ after, g.name ≠ name)
      (hnone : ∀ g ∈ registry.functions, g.name = name → ¬ g.signature.accepts count)

theorem IsChosen.mem (h : IsChosen registry name count f) :
    f ∈ registry.functions ∧ f.name = name := by
  cases h with
  | first hsplit hname | last hsplit hname => exact ⟨hsplit ▸ by simp, hname⟩

theorem find?_named (registry : Registry) (name : String) (p : Function → Bool) :
    (registry.named name).find? p = registry.functions.find? fun f => f.name == name && p f := by
  simp [Registry.named, List.find?_filter, beq_eq_decide]

/-- The last function of a name is the one with none of that name behind it. -/
theorem getLast?_named_eq_some : (registry.named name).getLast? = some f ↔
    ∃ before after, registry.functions = before ++ f :: after ∧ f.name = name ∧
      ∀ g ∈ after, g.name ≠ name := by
  rw [Registry.named, List.getLast?_eq_some_iff]
  constructor
  · rintro ⟨named, hnamed⟩
    obtain ⟨before, behind, hsplit, -, hbehind⟩ := List.filter_eq_append_iff.1 hnamed
    obtain ⟨between, after, rfl, -, hname, hafter⟩ := List.filter_eq_cons_iff.1 hbehind
    refine ⟨before ++ between, after, ?_, by simpa using hname, ?_⟩
    · rw [hsplit, List.append_assoc]
    · simpa [List.filter_eq_nil_iff] using hafter
  · rintro ⟨before, after, hsplit, hname, hafter⟩
    refine ⟨before.filter fun f => f.name == name, ?_⟩
    have hnil : (after.filter fun f => f.name == name) = [] := by
      simpa [List.filter_eq_nil_iff] using hafter
    rw [hsplit, List.filter_append, List.filter_cons_of_pos (by simpa using hname), hnil]

theorem choose_eq_ok : choose registry name count = .ok f ↔ IsChosen registry name count f := by
  have hchoose : choose registry name count = .ok f ↔
      ((registry.named name).find? fun f => f.signature.accepts count).or
        (registry.named name).getLast? = some f := by
    simp only [choose]
    split <;> simp [*]
  rw [hchoose, find?_named, Option.or_eq_some_iff, List.find?_eq_some_iff_append,
    List.find?_eq_none, getLast?_named_eq_some]
  constructor
  · rintro (⟨hfound, before, after, hsplit, hbefore⟩ |
      ⟨hnone, before, after, hsplit, hname, hafter⟩)
    · simp only [Bool.and_eq_true, beq_iff_eq] at hfound
      exact .first hsplit hfound.1 hfound.2 (by simpa [imp_iff_not_or] using hbefore)
    · exact .last hsplit hname hafter (by simpa using hnone)
  · rintro (⟨hsplit, hname, haccepts, hbefore⟩ | ⟨hsplit, hname, hafter, hnone⟩)
    · exact .inl ⟨by simp [hname, haccepts], _, _, hsplit, by simpa [imp_iff_not_or] using hbefore⟩
    · exact .inr ⟨by simpa using hnone, _, _, hsplit, hname, hafter⟩

theorem IsChosen.unique (hf : IsChosen registry name count f)
    (hg : IsChosen registry name count g) : f = g :=
  Except.ok.inj ((choose_eq_ok.2 hf).symm.trans (choose_eq_ok.2 hg))

theorem choose_eq_error : choose registry name count = .error error ↔
    error = .unknownFunction name ∧ ∀ f ∈ registry.functions, f.name ≠ name := by
  have hnil : registry.named name = [] ↔ ∀ f ∈ registry.functions, f.name ≠ name := by
    simp [Registry.named, List.filter_eq_nil_iff]
  rw [← hnil]
  simp only [choose]
  split
  · next f hf =>
    refine ⟨nofun, fun ⟨_, hnamed⟩ => ?_⟩
    rw [hnamed] at hf
    cases hf
  · next hnone =>
    have hnamed : registry.named name = [] :=
      List.getLast?_eq_none_iff.1 (Option.or_eq_none_iff.1 hnone).2
    simp [hnamed, eq_comm]

/-- Some function that can take the call is chosen exactly when some function accepts it, or the
last one can take it. -/
theorem exists_isChosen_canTake :
    (∃ f, IsChosen registry name count f ∧ f.signature.CanTake count) ↔
      (∃ f ∈ registry.functions, f.name = name ∧ f.signature.accepts count) ∨
        ∃ f, (registry.named name).getLast? = some f ∧ f.signature.CanTake count := by
  constructor
  · rintro ⟨f, hf, hcount⟩
    cases hf with
    | first hsplit hname haccepts => exact .inl ⟨f, hsplit ▸ by simp, hname, haccepts⟩
    | last hsplit hname hafter =>
      exact .inr ⟨f, getLast?_named_eq_some.2 ⟨_, _, hsplit, hname, hafter⟩, hcount⟩
  · intro h
    by_cases hsome : ∃ f ∈ registry.functions, f.name = name ∧ f.signature.accepts count
    · obtain ⟨f, hmem, hname, haccepts⟩ := hsome
      cases hchoice : choose registry name count with
      | error e => exact absurd hname ((choose_eq_error.1 hchoice).2 f hmem)
      | ok g =>
        refine ⟨g, choose_eq_ok.1 hchoice, ?_⟩
        cases choose_eq_ok.1 hchoice with
        | first _ _ haccepts => exact .of_accepts haccepts
        | last _ _ _ hnone => exact absurd haccepts (hnone f hmem hname)
    · obtain ⟨f, hlast, hcount⟩ := h.resolve_left hsome
      obtain ⟨before, after, hsplit, hname, hafter⟩ := getLast?_named_eq_some.1 hlast
      exact ⟨f, .last hsplit hname hafter fun g hg hgname haccepts =>
        hsome ⟨g, hg, hgname, haccepts⟩, hcount⟩

variable {tree : Tree} {args : List Tree} {code written : Program}

theorem compile_call (hname : tree.callee? = some name) (hargs : tree.arguments? = some args) :
    compile registry tree = do
      let f ← choose registry name args.length
      let written ← compileAll registry args
      let added ← omitted name f args.length
      return [Instruction.openCall] ++ written ++ added ++ [Instruction.call name (some f.id)] := by
  unfold Tree.arguments? at hargs
  split at hargs
  · cases hargs
    rw [Tree.callee?] at hname
    rw [compile, compileCall, hname]
    rfl
  · cases hargs
    rw [Tree.callee?] at hname
    rw [compile, compileCall, hname]
    rfl
  · cases hargs

/-- A call compiles when the chosen function can take it and its arguments compile. -/
theorem compile_call_eq_ok (hname : tree.callee? = some name)
    (hargs : tree.arguments? = some args) : compile registry tree = .ok code ↔
      ∃ f written, IsChosen registry name args.length f ∧ f.signature.CanTake args.length ∧
        compileAll registry args = .ok written ∧
        code = [Instruction.openCall] ++ written ++
          List.replicate (f.arity - args.length) (.value .null) ++
            [Instruction.call name (some f.id)] := by
  rw [compile_call hname hargs]
  simp only [bind_eq_ok, choose_eq_ok, omitted_eq_ok]
  constructor
  · rintro ⟨f, hf, written, hwritten, added, ⟨hcount, rfl⟩, hcode⟩
    exact ⟨f, written, hf, hcount, hwritten, (Except.ok.inj hcode).symm⟩
  · rintro ⟨f, written, hf, hcount, hwritten, rfl⟩
    exact ⟨f, hf, written, hwritten, _, ⟨hcount, rfl⟩, rfl⟩

/-- A call is refused when there is no function of its name, for one of its arguments, or when the
chosen function cannot take it. -/
theorem compile_call_eq_error (hname : tree.callee? = some name)
    (hargs : tree.arguments? = some args) : compile registry tree = .error error ↔
      (error = .unknownFunction name ∧ ∀ f ∈ registry.functions, f.name ≠ name) ∨
        ∃ f, IsChosen registry name args.length f ∧
          (compileAll registry args = .error error ∨
            ∃ written, compileAll registry args = .ok written ∧
              ¬ f.signature.CanTake args.length ∧ error = f.refusal name args.length) := by
  rw [compile_call hname hargs]
  simp only [bind_eq_error, choose_eq_ok, choose_eq_error, omitted_eq]
  refine or_congr_right (exists_congr fun f => and_congr_right fun _ => or_congr_right
    (exists_congr fun written => and_congr_right fun _ => ?_))
  by_cases hcount : f.signature.CanTake args.length
  · simp [hcount, pure, Except.pure]
  · simp [hcount, pure, Except.pure, eq_comm]

/-- Calls with arguments that compile. Such a call compiles exactly when some function of its name
accepts so many arguments, or the last function of the name can take them. It is then of a function
that can take them, and what that function lacks is passed as absent. Otherwise it is refused with
what the last function asks for, also when another one could have taken the call by leaving
arguments out. -/
theorem call_compiles_iff (hname : tree.callee? = some name) (hargs : tree.arguments? = some args)
    (hwritten : compileAll registry args = .ok written) :
    ((∃ code, compile registry tree = .ok code) ↔
        (∃ f ∈ registry.functions, f.name = name ∧ f.signature.accepts args.length) ∨
          ∃ f, (registry.named name).getLast? = some f ∧ f.signature.CanTake args.length) ∧
      (∀ code, compile registry tree = .ok code →
        ∃ f ∈ registry.functions, f.name = name ∧ f.signature.CanTake args.length ∧
          code = [Instruction.openCall] ++ written ++
            List.replicate (f.arity - args.length) (.value .null) ++
              [Instruction.call name (some f.id)]) ∧
      ∀ error, compile registry tree = .error error →
        (error = .unknownFunction name ∧ ∀ f ∈ registry.functions, f.name ≠ name) ∨
          ∃ f, (registry.named name).getLast? = some f ∧ error = f.refusal name args.length := by
  simp only [compile_call_eq_ok hname hargs, compile_call_eq_error hname hargs, hwritten]
  refine ⟨?_, ?_, ?_⟩
  · rw [← exists_isChosen_canTake]
    constructor
    · rintro ⟨code, f, written', hf, hcount, -⟩
      exact ⟨f, hf, hcount⟩
    · rintro ⟨f, hf, hcount⟩
      exact ⟨_, f, written, hf, hcount, rfl, rfl⟩
  · rintro code ⟨f, written', hf, hcount, ⟨⟩, rfl⟩
    exact ⟨f, hf.mem.1, hf.mem.2, hcount, rfl⟩
  · rintro error (hunknown | ⟨f, hf, hrefused | ⟨_, -, hcount, rfl⟩⟩)
    · exact .inl hunknown
    · cases hrefused
    · cases hf with
      | first _ _ haccepts => exact absurd (.of_accepts haccepts) hcount
      | last hsplit hname hafter =>
        exact .inr ⟨f, getLast?_named_eq_some.2 ⟨_, _, hsplit, hname, hafter⟩, rfl⟩

def overloads (name : String) (signatures : List Signature) : Registry :=
  signatures.foldl
    (fun r signature => (r.insert name (.native fun _ _ => .ok .null) signature false true).2)
    .empty

def bothNeeded : Signature := ⟨[{ integer := true }, { integer := true }], false⟩

def secondOptional : Signature := ⟨[{ integer := true }, { absent := true }], false⟩

def callOfOne : Tree :=
  .node .suffix [.leaf ⟨.name "f", 0⟩, .leaf ⟨.operator .openBracket, 1⟩,
    .node .arguments [.leaf ⟨.integer 1, 2⟩], .leaf ⟨.operator .closeBracket, 3⟩]

/-- One overload could take the call. It is refused while the other one is registered last. -/
theorem call_compiles_iff_of_overloads :
    (∃ f ∈ (overloads "f" [secondOptional, bothNeeded]).functions,
        f.name = "f" ∧ f.signature.CanTake 1) ∧
      (¬ ∃ code, compile (overloads "f" [secondOptional, bothNeeded]) callOfOne = .ok code) ∧
      ∃ code, compile (overloads "f" [bothNeeded, secondOptional]) callOfOne = .ok code := by
  have hwritten (registry : Registry) :
      compileAll registry [.leaf ⟨.integer 1, 2⟩] = .ok [.value (.integer 1)] := by
    simp [compileAll, compile, ofToken, bind, Except.bind, pure, Except.pure]
  have hname : callOfOne.callee? = some "f" := rfl
  refine ⟨by decide, ?_, ?_⟩
  · rw [(call_compiles_iff hname rfl (hwritten _)).1]
    decide
  · rw [(call_compiles_iff hname rfl (hwritten _)).1]
    decide

end Program

end Reckoner
