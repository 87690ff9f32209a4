import Mathlib
import Reckoner.Proofs.Machine.Blocks
import Reckoner.Proofs.Machine.Stacked

/-!
Where calls come from. Every call that a run of emitted code comes to is written somewhere in the
tree, and the run has come through the code of its arguments: one group of entries for each of
them, in the order they are written, and an absent value for each one that was left out.
-/

namespace Reckoner

namespace Machine

open Program

/-- A call as it is written: its name, its arguments with their code, and the function that was
chosen for it. -/
structure Site where
  name : String
  args : List (Tree × Program)
  function : Function

namespace Site

def missing (site : Site) : Nat := site.function.arity - site.args.length

def lead (site : Site) : Program :=
  [.openCall] ++ site.args.flatMap Prod.snd ++ List.replicate site.missing (.value .null)

def code (site : Site) : Program := site.lead ++ [.call site.name (some site.function.id)]

structure IsWritten (registry : Registry) (tree : Tree) (site : Site) : Prop where
  arguments : tree.arguments? = some (site.args.map Prod.fst)
  chosen : choose registry site.name site.args.length = .ok site.function
  emitted : ∀ arg ∈ site.args, Emits registry arg.1 arg.2
  single : ∀ arg ∈ site.args, arg.1.isList = false
  fitting : ∃ added, omitted site.name site.function site.args.length = .ok added

end Site

section Locates

variable {runner : Runner} {depth : Nat}

def Through (runner : Runner) (depth : Nat) (code : Program) (stack : Stack) (s : State)
    (stack' : Stack) (s' : State) : Prop :=
  ∀ tail, Reaches runner depth ⟨code ++ tail, stack, s⟩ ⟨tail, stack', s'⟩

def Site.IsMet (runner : Runner) (depth : Nat) (start c : Config) (site : Site) : Prop :=
  ∃ more below s, c.program = .call site.name (some site.function.id) :: more ∧
    Reaches runner depth start ⟨site.code ++ more, below, s⟩ ∧
    Through runner depth site.lead below s c.stack c.state

theorem Site.IsMet.head {start start' c : Config} {site : Site}
    (h : site.IsMet runner depth start' c) (hreaches : Reaches runner depth start start') :
    site.IsMet runner depth start c := by
  obtain ⟨more, below, s, hprogram, hsite, hthrough⟩ := h
  exact ⟨more, below, s, hprogram, hreaches.trans hsite, hthrough⟩

/-- Wherever a run of the code is, it has come through the code, or it is inside; if it is at a call
there, the call is one that has the property. -/
def Locates (P : Site → Prop) (code : Program) : Prop :=
  ∀ ⦃runner depth tail stack s c⦄, Reaches runner depth ⟨code ++ tail, stack, s⟩ c →
    (∃ stack' s', Through runner depth code stack s stack' s' ∧
        Reaches runner depth ⟨tail, stack', s'⟩ c) ∨
      ((∃ name target more, c.program = .call name target :: more) →
        ∃ site : Site, P site ∧ site.IsMet runner depth ⟨code ++ tail, stack, s⟩ c)

/-- An instruction other than the start of a block does the same before any code. -/
theorem Step.program_eq {instruction : Instruction} {tail : Program} {stack : Stack} {s : State}
    {c : Config} (h : Step runner depth ⟨instruction :: tail, stack, s⟩ c)
    (hplain : instruction ≠ .startBlock) :
    c.program = tail ∧
      ∀ more, Step runner depth ⟨instruction :: more, stack, s⟩ ⟨more, c.stack, c.state⟩ := by
  cases h with
  | name name => exact ⟨rfl, fun more => .name name more _ _⟩
  | value v => exact ⟨rfl, fun more => .value v more _ _⟩
  | openCall => exact ⟨rfl, fun more => .openCall more _ _⟩
  | startBlock => exact absurd rfl hplain
  | call _ h => exact ⟨rfl, fun more => .call more h⟩
  | operator _ h => exact ⟨rfl, fun more => .operator more h⟩

/-- From the first instruction, a run stays there or goes through it. -/
theorem through_of_reaches {instruction : Instruction} {tail : Program} {stack : Stack} {s : State}
    {c : Config} (h : Reaches runner depth ⟨instruction :: tail, stack, s⟩ c)
    (hplain : instruction ≠ .startBlock) :
    c = ⟨instruction :: tail, stack, s⟩ ∨
      ∃ stack' s', Through runner depth [instruction] stack s stack' s' ∧
        Reaches runner depth ⟨tail, stack', s'⟩ c := by
  rcases Relation.ReflTransGen.cases_head h with heq | ⟨c₁, hstep, hmore⟩
  · exact .inl heq.symm
  · obtain ⟨hprogram, hany⟩ := hstep.program_eq hplain
    refine .inr ⟨c₁.stack, c₁.state, fun more => .single (hany more), ?_⟩
    rwa [← hprogram]

namespace Locates

variable {P Q : Site → Prop} {code code' : Program}

theorem nil : Locates P [] := fun _ _ _ stack s _ h => .inl ⟨stack, s, fun _ => .refl, h⟩

theorem single {instruction : Instruction} (hplain : instruction ≠ .startBlock)
    (hcall : ∀ name target, instruction ≠ .call name target) : Locates P [instruction] := by
  intro runner depth tail stack s c h
  rcases through_of_reaches h hplain with rfl | hthrough
  · refine .inr ?_
    rintro ⟨name, target, more, hprogram⟩
    exact absurd (List.cons.inj hprogram).1 (hcall name target)
  · exact .inl hthrough

theorem append (h : Locates P code) (h' : Locates P code') : Locates P (code ++ code') := by
  intro runner depth tail stack s c hreaches
  rw [List.append_assoc] at hreaches ⊢
  rcases h hreaches with ⟨stack₁, s₁, hthrough, hreaches₁⟩ | hinside
  · rcases h' hreaches₁ with ⟨stack₂, s₂, hthrough', hreaches₂⟩ | hinside
    · refine .inl ⟨stack₂, s₂, fun more => ?_, hreaches₂⟩
      rw [List.append_assoc]
      exact (hthrough _).trans (hthrough' more)
    · refine .inr fun hcall => ?_
      obtain ⟨site, hsite, hmet⟩ := hinside hcall
      exact ⟨site, hsite, hmet.head (hthrough _)⟩
  · exact .inr hinside

theorem mono (h : Locates P code) (hPQ : ∀ site, P site → Q site) : Locates Q code := by
  intro runner depth tail stack s c hreaches
  refine (h hreaches).imp id fun hinside hcall => ?_
  obtain ⟨site, hsite, hmet⟩ := hinside hcall
  exact ⟨site, hPQ site hsite, hmet⟩

theorem of_forall (h : ∀ instruction ∈ code,
    instruction ≠ .startBlock ∧ ∀ name target, instruction ≠ .call name target) :
    Locates P code := by
  induction code with
  | nil => exact nil
  | cons instruction more ih =>
    have hfirst := h instruction (.head _)
    exact (single hfirst.1 hfirst.2).append (ih fun i hi => h i (.tail _ hi))

theorem flatMap {args : List (Tree × Program)} (h : ∀ arg ∈ args, Locates P arg.2) :
    Locates P (args.flatMap Prod.snd) := by
  induction args with
  | nil => exact nil
  | cons arg more ih =>
    rw [List.flatMap_cons]
    exact (h arg (.head _)).append (ih fun a ha => h a (.tail _ ha))

/-- A block is skipped. -/
theorem block {body : Program} (hbody : Balanced body) :
    Locates P ([.startBlock] ++ body ++ [.endBlock]) := by
  intro runner depth tail stack s c h
  have hskip (more : Program) : Step runner depth
      ⟨[.startBlock] ++ body ++ [.endBlock] ++ more, stack, s⟩ ⟨more, .block body :: stack, s⟩ := by
    simpa using Step.startBlock (hbody.splitBlock_append more) stack s
  rcases Relation.ReflTransGen.cases_head h with rfl | ⟨c₁, hstep, hmore⟩
  · refine .inr ?_
    rintro ⟨name, target, more, hprogram⟩
    cases (List.cons.inj hprogram).1
  · have heq : c₁ = ⟨tail, .block body :: stack, s⟩ := by
      generalize hprogram : [Instruction.startBlock] ++ body ++ [.endBlock] ++ tail = all at hstep
      cases hstep with
      | @startBlock more _ _ hsplit =>
        have hall : body ++ .endBlock :: tail = more := by simpa using hprogram
        have hclosed := hbody.splitBlock_append tail
        rw [hall, hsplit] at hclosed
        cases hclosed
        rfl
      | name | value | openCall | call | operator => cases (List.cons.inj hprogram).1
    exact .inl ⟨_, s, fun more => .single (hskip more), heq ▸ hmore⟩

/-- A run is at the call of a site when it has come through what leads to it. -/
theorem call (site : Site) (hsite : P site) (hargs : Locates P (site.args.flatMap Prod.snd)) :
    Locates P site.code := by
  have hopen : Locates P [.openCall] := single nofun nofun
  have hnulls : Locates P (List.replicate site.missing (.value .null)) := by
    refine of_forall fun instruction hmem => ?_
    rw [List.eq_of_mem_replicate hmem]
    exact ⟨nofun, nofun⟩
  have hlead : Locates P site.lead := (hopen.append hargs).append hnulls
  intro runner depth tail stack s c h
  have hcode : site.code ++ tail =
      site.lead ++ .call site.name (some site.function.id) :: tail := by
    rw [Site.code, List.append_assoc, List.singleton_append]
  rw [hcode] at h
  rcases hlead h with ⟨stack₁, s₁, hthrough, hreaches⟩ | hinside
  · rcases through_of_reaches hreaches nofun with rfl | ⟨stack₂, s₂, hcall, hreaches₂⟩
    · exact .inr fun _ => ⟨site, hsite, tail, stack, s, rfl, .refl, hthrough⟩
    · refine .inl ⟨stack₂, s₂, fun more => ?_, hreaches₂⟩
      rw [Site.code, List.append_assoc]
      exact (hthrough _).trans (hcall more)
  · rw [hcode]
    exact .inr hinside

end Locates

/-- The calls of emitted code are written in the tree. -/
theorem locates_of_emits {registry : Registry} {tree : Tree} {code : Program}
    (h : Emits registry tree code) :
    Locates (fun site => ∃ part ∈ tree.parts, site.IsWritten registry part) code := by
  have hone (P : Site → Prop) (op : Operator) : Locates P [.operator op] :=
    .single (by simp) (by simp)
  have hname (P : Site → Prop) (name : String) : Locates P [.name name] :=
    .single (by simp) (by simp)
  have hinside {rule : Rule} {children : List Tree} {child : Tree} {code : Program}
      (hchild : child ∈ children)
      (h : Locates (fun site => ∃ part ∈ child.parts, site.IsWritten registry part) code) :
      Locates (fun site => ∃ part ∈ (Tree.node rule children).parts, site.IsWritten registry part)
        code :=
    h.mono fun site ⟨part, hpart, hsite⟩ =>
      ⟨part, Tree.mem_parts_node.2 (.inr ⟨child, hchild, hpart⟩), hsite⟩
  have hstep (P : Site → Prop) (name : String) (op : Operator) : Locates P (step name op) := by
    refine .of_forall fun instruction hmem => ?_
    simp only [step, List.mem_cons, List.not_mem_nil, or_false] at hmem
    rcases hmem with rfl | rfl | rfl | rfl | rfl <;> simp
  have hundo (P : Site → Prop) (op : Operator) : Locates P (undo op) := by
    refine .of_forall fun instruction hmem => ?_
    simp only [undo, List.mem_cons, List.not_mem_nil, or_false] at hmem
    rcases hmem with rfl | rfl <;> simp
  induction h with
  | @leaf token code h =>
    unfold ofToken at h
    split at h <;> cases h <;> exact .single (by simp) (by simp)
  | list _ _ _ ihl ihr =>
    exact ((hinside (by simp) ihl).append (hinside (by simp) ihr)).append (hone _ _)
  | assign _ _ _ _ ih =>
    exact ((hname _ _).append (hinside (by simp) ih)).append (hone _ _)
  | compound _ _ _ _ _ ih =>
    exact (((hname _ _).append (hname _ _)).append (hinside (by simp) ih)).append
      ((hone _ _).append (hone _ _))
  | @choice _ _ condition first second a b c hfirst hsecond _ _ _ _ _ ihc =>
    have hcode : [Instruction.startBlock] ++ a ++ [Instruction.endBlock, .startBlock] ++ b ++
          [Instruction.endBlock] ++ c ++ [Instruction.operator .question] =
        ([Instruction.startBlock] ++ a ++ [Instruction.endBlock]) ++
          (([Instruction.startBlock] ++ b ++ [Instruction.endBlock]) ++
            (c ++ [Instruction.operator .question])) := by simp
    rw [hcode]
    exact (Locates.block (balanced_of_emits hfirst)).append
      ((Locates.block (balanced_of_emits hsecond)).append
        ((hinside (by simp) ihc).append (hone _ .question)))
  | stepFirst => exact hstep _ _ _
  | prefixed _ _ _ _ _ ih => exact (hinside (by simp) ih).append (hone _ _)
  | stepAfter => exact (hstep _ _ _).append (hundo _ _)
  | @emptyCall token left right name f added _ hf hadded =>
    have hwritten : Site.IsWritten registry (.node .suffix [.leaf token, .leaf left, .leaf right])
        ⟨name, [], f⟩ := ⟨rfl, hf, by simp, by simp, added, hadded⟩
    rw [eq_replicate_of_omitted hadded]
    exact Locates.call ⟨name, [], f⟩ ⟨_, Tree.mem_parts_self _, hwritten⟩ .nil
  | @call token left right name f args added _ hf hargs hsingle hadded ih =>
    have hwritten : Site.IsWritten registry (.node .suffix [.leaf token, .leaf left,
        .node .arguments (args.map Prod.fst), .leaf right]) ⟨name, args, f⟩ :=
      ⟨rfl, hf, hargs, hsingle, added, hadded⟩
    rw [eq_replicate_of_omitted hadded]
    refine Locates.call ⟨name, args, f⟩ ⟨_, Tree.mem_parts_self _, hwritten⟩
      (Locates.flatMap fun arg harg => ?_)
    have harguments : Locates (fun site => ∃ part ∈
        (Tree.node .arguments (args.map Prod.fst)).parts, site.IsWritten registry part) arg.2 :=
      hinside (List.mem_map_of_mem harg) (ih arg harg)
    exact hinside (by simp) harguments
  | group _ ih => exact hinside (by simp) ih
  | operation _ _ _ _ _ _ _ ihl ihr =>
    exact ((hinside (by simp) ihl).append (hinside (by simp) ihr)).append (hone _ _)

end Locates

end Machine

end Reckoner
