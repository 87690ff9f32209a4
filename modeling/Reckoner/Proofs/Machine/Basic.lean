import Reckoner.Machine.Run
import Reckoner.Proofs.Program.Clauses

/-!
Computations of the machine as a monad, what a computation yields when it ends, and the equations
of a run by its first instruction. Emitted code opens and closes its blocks in pairs, so a block is
cut off a program where its code ends.
-/

namespace Reckoner.Machine

open Program

variable {α β : Type}

theorem ext {m m' : Machine α} (h : ∀ s, m s = m' s) : m = m' := funext h

instance : LawfulMonad Machine :=
  LawfulMonad.mk' Machine
    (fun m => by
      refine ext fun s => ?_
      change (m >>= pure) s = m s
      rw [bind_eq]
      cases m s <;> rfl)
    (fun _ _ => rfl)
    (fun m f g => by
      refine ext fun s => ?_
      simp only [bind_eq]
      cases m s <;> rfl)

def Yields (out : Prop) (m : Machine α) (P : α → Prop) : Prop :=
  ∀ s,
    match m s with
    | .done a _ => P a
    | .stopped _ _ => False
    | .outOfFuel => out

def Runner.LacksFuel (runner : Runner) : Prop :=
  ∃ depth program env journal, runner depth program env journal = none

namespace Yields

variable {out : Prop} {m : Machine α} {f : α → Machine β} {P P' : α → Prop} {Q : β → Prop}

theorem pure {a : α} (h : P a) : Yields out (Pure.pure a) P := fun _ => h

theorem bind (hm : Yields out m P) (hf : ∀ a, P a → Yields out (f a) Q) :
    Yields out (m >>= f) Q := by
  intro s
  have hms := hm s
  rw [bind_eq]
  cases h : m s with
  | done a s' =>
    rw [h] at hms
    exact hf a hms s'
  | stopped error s' =>
    rw [h] at hms
    exact hms.elim
  | outOfFuel =>
    rw [h] at hms
    exact hms

theorem mono (hm : Yields out m P) (h : ∀ a, P a → P' a) : Yields out m P' := by
  intro s
  have hms := hm s
  cases hs : m s with
  | done a s' =>
    rw [hs] at hms
    exact h a hms
  | stopped error s' =>
    rw [hs] at hms
    exact hms
  | outOfFuel =>
    rw [hs] at hms
    exact hms

/-- A continuation matters only on the results that are yielded. -/
theorem bind_congr (hm : Yields out m P) {f g : α → Machine β} (h : ∀ a, P a → f a = g a) :
    m >>= f = m >>= g := by
  refine ext fun s => ?_
  have hms := hm s
  simp only [bind_eq]
  cases hs : m s with
  | done a s' =>
    rw [hs] at hms
    exact congrFun (h a hms) s'
  | stopped | outOfFuel => rfl

end Yields

/-! Partial correctness: what a result is like, if there is one. -/

def Ends (m : Machine α) (P : α → Prop) : Prop := ∀ ⦃s a s'⦄, m s = .done a s' → P a

section Ends

variable {m : Machine α} {f g : α → Machine β} {P : α → Prop} {Q : β → Prop}

theorem ends_pure {a : α} (h : P a) : Ends (pure a) P := by
  intro s b s' hb
  cases hb
  exact h

theorem Ends.bind (hm : Ends m P) (hf : ∀ a, P a → Ends (f a) Q) : Ends (m >>= f) Q := by
  intro s b s' hb
  rw [bind_eq] at hb
  cases hs : m s with
  | done a s₁ =>
    rw [hs] at hb
    exact hf a (hm hs) hb
  | stopped error s₁ =>
    rw [hs] at hb
    cases hb
  | outOfFuel =>
    rw [hs] at hb
    cases hb

theorem Ends.mono {P' : α → Prop} (hm : Ends m P) (h : ∀ a, P a → P' a) : Ends m P' :=
  fun _ _ _ hdone => h _ (hm hdone)

/-- Whatever came before. -/
theorem ends_after (hf : ∀ a, Ends (f a) Q) : Ends (m >>= f) Q :=
  Ends.bind (P := fun _ => True) (fun _ _ _ _ => trivial) fun a _ => hf a

theorem ends_of_yields (h : Yields True m P) : Ends m P := by
  intro s a s' ha
  have hs := h s
  rw [ha] at hs
  exact hs

/-- A continuation matters only on the results there are. -/
theorem Ends.bind_congr (hm : Ends m P) (h : ∀ a, P a → f a = g a) : m >>= f = m >>= g := by
  refine ext fun s => ?_
  simp only [bind_eq]
  cases hs : m s with
  | done a s' => exact congrFun (h a (hm hs)) s'
  | stopped | outOfFuel => rfl

end Ends

/-! Running a program by its first instruction. -/

section Perform

variable (runner : Runner) (depth : Nat) (stack : Stack)

theorem perform_nil : perform runner depth [] stack = pure stack := by rw [perform]

theorem perform_name (name : String) (more : Program) :
    perform runner depth (.name name :: more) stack =
      perform runner depth more (.name name :: stack) := by rw [perform]

theorem perform_value (v : Value) (more : Program) :
    perform runner depth (.value v :: more) stack =
      perform runner depth more (.value v :: stack) := by rw [perform]

theorem perform_openCall (more : Program) :
    perform runner depth (.openCall :: more) stack =
      perform runner depth more (.openCall :: stack) := by rw [perform]

theorem perform_startBlock {more body rest : Program} (h : splitBlock 0 more = some (body, rest)) :
    perform runner depth (.startBlock :: more) stack =
      perform runner depth rest (.block body :: stack) := by
  rw [perform]
  split
  · next hnone => rw [h] at hnone; cases hnone
  · next body' rest' hsome =>
    rw [h] at hsome
    cases hsome
    rfl

theorem perform_unterminated {more : Program} (h : splitBlock 0 more = none) :
    perform runner depth (.startBlock :: more) stack = stop (.other "Unterminated block") := by
  rw [perform]
  split
  · rfl
  · next hsome => rw [h] at hsome; cases hsome

theorem perform_endBlock (more : Program) :
    perform runner depth (.endBlock :: more) stack = stop (.other "Unmatched end of block") := by
  rw [perform]

theorem perform_call (name : String) (target : Option FunctionId) (more : Program) :
    perform runner depth (.call name target :: more) stack =
      call runner depth name target stack >>= perform runner depth more := by rw [perform]

theorem perform_operator (op : Operator) (more : Program) :
    perform runner depth (.operator op :: more) stack =
      operator runner depth op stack >>= perform runner depth more := by rw [perform]

end Perform

theorem operator_of_takesOne {op : Operator} (h : op.takesOne) (runner : Runner) (depth : Nat) :
    operator runner depth op = unary op := by
  cases op <;> first | rfl | cases h

theorem operator_of_takesTwo {op : Operator} (h : op.takesTwo) (runner : Runner) (depth : Nat) :
    operator runner depth op = binary op := by
  cases op <;> first | rfl | cases h

/-! Cutting calls and blocks. -/

theorem splitCall_append {slots : List Slot} (h : Slot.openCall ∉ slots) (args : List Slot)
    (stack : Stack) :
    splitCall args (slots ++ .openCall :: stack) = some (slots.reverse ++ args, stack) := by
  induction slots generalizing args with
  | nil => rfl
  | cons slot slots ih =>
    have hslot : slot ≠ .openCall := fun heq => h (heq ▸ .head _)
    have hslots : Slot.openCall ∉ slots := fun hmem => h (.tail _ hmem)
    rw [List.cons_append, splitCall, ih hslots]
    · simp
    · exact hslot

def Balanced (code : Program) : Prop :=
  ∀ inner rest, splitBlock inner (code ++ rest) =
    (splitBlock inner rest).map fun (body, after) => (code ++ body, after)

namespace Balanced

variable {code code' : Program}

theorem nil : Balanced [] := by
  intro inner rest
  simp

theorem append (h : Balanced code) (h' : Balanced code') : Balanced (code ++ code') := by
  intro inner rest
  rw [List.append_assoc, h, h', Option.map_map]
  simp [Function.comp_def]

theorem single {instruction : Instruction}
    (h : instruction ≠ .startBlock ∧ instruction ≠ .endBlock) : Balanced [instruction] := by
  intro inner rest
  cases instruction <;> first | exact absurd rfl h.1 | exact absurd rfl h.2 | simp [splitBlock]

theorem block (h : Balanced code) :
    Balanced ([Instruction.startBlock] ++ code ++ [Instruction.endBlock]) := by
  intro inner rest
  have hcode := h (inner + 1) (.endBlock :: rest)
  simp only [List.append_assoc, List.cons_append, List.nil_append, splitBlock,
    Option.map_map] at hcode ⊢
  rw [hcode]
  simp [Function.comp_def]

theorem of_forall (h : ∀ instruction ∈ code, instruction ≠ .startBlock ∧ instruction ≠ .endBlock) :
    Balanced code := by
  induction code with
  | nil => exact nil
  | cons instruction more ih =>
    exact (single (h _ (.head _))).append (ih fun i hi => h i (.tail _ hi))

theorem flatMap {args : List (Tree × Program)} (h : ∀ arg ∈ args, Balanced arg.2) :
    Balanced (args.flatMap Prod.snd) := by
  induction args with
  | nil => exact nil
  | cons arg more ih =>
    rw [List.flatMap_cons]
    exact (h arg (.head _)).append (ih fun a ha => h a (.tail _ ha))

/-- The block that was opened before the code ends behind it. -/
theorem splitBlock_append (h : Balanced code) (rest : Program) :
    splitBlock 0 (code ++ .endBlock :: rest) = some (code, rest) := by
  rw [h]
  simp [splitBlock]

end Balanced

theorem step_ne_block {name : String} {op : Operator} {instruction : Instruction}
    (h : instruction ∈ step name op) :
    instruction ≠ .startBlock ∧ instruction ≠ .endBlock := by
  simp only [step, List.mem_cons, List.not_mem_nil, or_false] at h
  rcases h with rfl | rfl | rfl | rfl | rfl <;> exact ⟨nofun, nofun⟩

theorem undo_ne_block {op : Operator} {instruction : Instruction} (h : instruction ∈ undo op) :
    instruction ≠ .startBlock ∧ instruction ≠ .endBlock := by
  simp only [undo, List.mem_cons, List.not_mem_nil, or_false] at h
  rcases h with rfl | rfl <;> exact ⟨nofun, nofun⟩

theorem balanced_omitted {name : String} {f : Function} {count : Nat} {added : Program}
    (h : omitted name f count = .ok added) : Balanced added := by
  rw [eq_replicate_of_omitted h]
  refine Balanced.of_forall fun instruction hmem => ?_
  rw [List.eq_of_mem_replicate hmem]
  exact ⟨nofun, nofun⟩

theorem balanced_of_emits {registry : Registry} {tree : Tree} {code : Program}
    (h : Emits registry tree code) : Balanced code := by
  have hone (op : Operator) : Balanced [.operator op] := Balanced.single ⟨nofun, nofun⟩
  have hname (name : String) : Balanced [.name name] := Balanced.single ⟨nofun, nofun⟩
  have hopen : Balanced [.openCall] := Balanced.single ⟨nofun, nofun⟩
  have hcall (name : String) (target : Option FunctionId) : Balanced [.call name target] :=
    Balanced.single ⟨nofun, nofun⟩
  induction h with
  | @leaf token code h =>
    unfold ofToken at h
    split at h <;> cases h <;> exact Balanced.single ⟨nofun, nofun⟩
  | list _ _ _ ihl ihr => exact (ihl.append ihr).append (hone _)
  | assign _ _ _ _ ih => exact ((hname _).append ih).append (hone _)
  | compound _ _ _ _ _ ih =>
    exact (((hname _).append (hname _)).append ih).append ((hone _).append (hone _))
  | @choice condition mark first sep second a b c _ _ _ _ _ ihf ihs ihc =>
    have hblocks := (ihf.block.append ihs.block).append (ihc.append (hone .question))
    simpa [List.append_assoc] using hblocks
  | stepFirst => exact Balanced.of_forall fun _ => step_ne_block
  | prefixed _ _ _ _ _ ih => exact ih.append (hone _)
  | stepAfter =>
    exact (Balanced.of_forall fun _ => step_ne_block).append
      (Balanced.of_forall fun _ => undo_ne_block)
  | emptyCall _ _ hadded => exact (hopen.append (balanced_omitted hadded)).append (hcall _ _)
  | call _ _ _ _ hadded ih =>
    exact ((hopen.append (Balanced.flatMap ih)).append (balanced_omitted hadded)).append (hcall _ _)
  | group _ ih => exact ih
  | operation _ _ _ _ _ _ _ ihl ihr => exact (ihl.append ihr).append (hone _)

end Reckoner.Machine
