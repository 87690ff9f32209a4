import Reckoner.Proofs.Machine.Inversion
import Reckoner.Proofs.Program.Parts

/-!
The blocks of a program. Emitted code opens and closes its blocks in pairs, and each of them holds
the code of a part of the tree. A run keeps to this: whatever block is on the stack, and so whatever
branch is run, is one that the program holds.
-/

namespace Reckoner.Machine

open Program

inductive HasBlocks (P : Program → Prop) : Program → Prop where
  | nil : HasBlocks P []
  | cons {instruction : Instruction} {more : Program}
      (hplain : instruction ≠ .startBlock ∧ instruction ≠ .endBlock) (hmore : HasBlocks P more) :
      HasBlocks P (instruction :: more)
  | block {body more : Program} (hbody : HasBlocks P body) (hholds : P body)
      (hmore : HasBlocks P more) : HasBlocks P (.startBlock :: (body ++ .endBlock :: more))

namespace HasBlocks

variable {P Q : Program → Prop} {code code' : Program}

theorem append (h : HasBlocks P code) (h' : HasBlocks P code') : HasBlocks P (code ++ code') := by
  induction h with
  | nil => exact h'
  | cons hplain _ ih => exact .cons hplain ih
  | @block body more hbody hholds _ _ ih =>
    rw [List.cons_append, List.append_assoc, List.cons_append]
    exact .block hbody hholds ih

theorem single {instruction : Instruction}
    (h : instruction ≠ .startBlock ∧ instruction ≠ .endBlock) : HasBlocks P [instruction] :=
  .cons h .nil

theorem of_forall
    (h : ∀ instruction ∈ code, instruction ≠ .startBlock ∧ instruction ≠ .endBlock) :
    HasBlocks P code := by
  induction code with
  | nil => exact .nil
  | cons instruction more ih => exact .cons (h _ (.head _)) (ih fun i hi => h i (.tail _ hi))

theorem flatMap {args : List (Tree × Program)} (h : ∀ arg ∈ args, HasBlocks P arg.2) :
    HasBlocks P (args.flatMap Prod.snd) := by
  induction args with
  | nil => exact .nil
  | cons arg more ih =>
    rw [List.flatMap_cons]
    exact (h arg (.head _)).append (ih fun a ha => h a (.tail _ ha))

theorem mono (h : HasBlocks P code) (hPQ : ∀ body, P body → Q body) : HasBlocks Q code := by
  induction h with
  | nil => exact .nil
  | cons hplain _ ih => exact .cons hplain ih
  | block _ hholds _ ihbody ih => exact .block ihbody (hPQ _ hholds) ih

theorem balanced (h : HasBlocks P code) : Balanced code := by
  induction h with
  | nil => exact Balanced.nil
  | @cons instruction more hplain _ ih => exact (Balanced.single hplain).append ih
  | @block body more _ _ _ ihbody ih =>
    have hblock := ihbody.block.append ih
    simpa using hblock

/-- The block that is opened first is closed where the code of its body ends. -/
theorem split (h : HasBlocks P (.startBlock :: code)) :
    ∃ body rest, splitBlock 0 code = some (body, rest) ∧ P body ∧ HasBlocks P rest := by
  generalize hcode : Instruction.startBlock :: code = all at h
  cases h with
  | nil => cases hcode
  | cons hplain =>
    cases hcode
    exact absurd rfl hplain.1
  | block hbody hholds hmore =>
    cases hcode
    exact ⟨_, _, hbody.balanced.splitBlock_append _, hholds, hmore⟩

theorem tail {instruction : Instruction} (h : HasBlocks P (instruction :: code))
    (hplain : instruction ≠ .startBlock) : HasBlocks P code := by
  cases h with
  | cons _ hmore => exact hmore
  | block => exact absurd rfl hplain

end HasBlocks

/-- Every block in the code of a tree is the code of one of its parts. -/
theorem hasBlocks_of_emits {registry : Registry} {tree : Tree} {code : Program}
    (h : Emits registry tree code) :
    HasBlocks (fun body => ∃ part ∈ tree.parts, Emits registry part body) code := by
  have hone (P : Program → Prop) (op : Operator) : HasBlocks P [.operator op] :=
    .single ⟨nofun, nofun⟩
  have hname (P : Program → Prop) (name : String) : HasBlocks P [.name name] :=
    .single ⟨nofun, nofun⟩
  have hinside {rule : Rule} {children : List Tree} {child : Tree} {code : Program}
      (hchild : child ∈ children)
      (h : HasBlocks (fun body => ∃ part ∈ child.parts, Emits registry part body) code) :
      HasBlocks (fun body => ∃ part ∈ (Tree.node rule children).parts, Emits registry part body)
        code :=
    h.mono fun body ⟨part, hpart, hbody⟩ =>
      ⟨part, Tree.mem_parts_node.2 (.inr ⟨child, hchild, hpart⟩), hbody⟩
  have hbranch {rule : Rule} {children : List Tree} {child : Tree} {code : Program}
      (hchild : child ∈ children) (h : Emits registry child code) :
      ∃ part ∈ (Tree.node rule children).parts, Emits registry part code :=
    ⟨child, Tree.mem_parts_node.2 (.inr ⟨child, hchild, child.mem_parts_self⟩), h⟩
  have hcall (P : Program → Prop) {name callee : String} {f : Function} {count : Nat}
      {args added : Program} (hargs : HasBlocks P args)
      (hadded : omitted name f count = .ok added) :
      HasBlocks P ([.openCall] ++ args ++ added ++ [.call callee (some f.id)]) := by
    have hnulls : HasBlocks P added := by
      rw [eq_replicate_of_omitted hadded]
      refine .of_forall fun instruction hmem => ?_
      rw [List.eq_of_mem_replicate hmem]
      exact ⟨nofun, nofun⟩
    have hopen : HasBlocks P [.openCall] := .single ⟨nofun, nofun⟩
    have hlast : HasBlocks P [.call callee (some f.id)] := .single ⟨nofun, nofun⟩
    exact ((hopen.append hargs).append hnulls).append hlast
  induction h with
  | @leaf token code h =>
    unfold ofToken at h
    split at h <;> cases h <;> exact .single ⟨nofun, nofun⟩
  | list _ _ _ ihl ihr =>
    exact ((hinside (by simp) ihl).append (hinside (by simp) ihr)).append (hone _ _)
  | assign _ _ _ _ ih =>
    exact ((hname _ _).append (hinside (by simp) ih)).append (hone _ _)
  | compound _ _ _ _ _ ih =>
    exact (((hname _ _).append (hname _ _)).append (hinside (by simp) ih)).append
      ((hone _ _).append (hone _ _))
  | @choice _ _ condition first second a b c hfirst hsecond _ _ _ iha ihb ihc =>
    rw [choice_eq_cons]
    exact .block (hinside (by simp) iha) (hbranch (by simp) hfirst)
      (.block (hinside (by simp) ihb) (hbranch (by simp) hsecond)
        ((hinside (by simp) ihc).append (hone _ .question)))
  | stepFirst => exact .of_forall fun _ => step_ne_block
  | prefixed _ _ _ _ _ ih => exact (hinside (by simp) ih).append (hone _ _)
  | stepAfter =>
    exact (HasBlocks.of_forall fun _ => step_ne_block).append
      (HasBlocks.of_forall fun _ => undo_ne_block)
  | emptyCall _ _ hadded => exact hcall _ .nil hadded
  | @call token left right name f args added _ _ _ _ hadded ih =>
    refine hcall _ (HasBlocks.flatMap fun arg harg => ?_) hadded
    have harguments : HasBlocks (fun body =>
        ∃ part ∈ (Tree.node .arguments (args.map Prod.fst)).parts, Emits registry part body)
        arg.2 :=
      hinside (List.mem_map_of_mem harg) (ih arg harg)
    exact hinside (by simp) harguments
  | group _ ih => exact hinside (by simp) ih
  | operation _ _ _ _ _ _ _ ihl ihr =>
    exact ((hinside (by simp) ihl).append (hinside (by simp) ihr)).append (hone _ _)

/-- What is left of the program, and every block on the stack, has blocks with the property only. -/
structure Config.HoldsBlocks (P : Program → Prop) (c : Config) : Prop where
  program : HasBlocks P c.program
  stack : ∀ body, .block body ∈ c.stack → P body

variable {P : Program → Prop} {c : Config} {rest : Program} {s : State}

theorem block_mem_ofResult {r : Except Error Value} {body : Program} {below : Stack}
    (h : .block body ∈ Slot.ofResult r :: below) : .block body ∈ below := by
  rcases List.mem_cons.1 h with heq | hbelow
  · cases r <;> cases heq
  · exact hbelow

theorem mem_of_splitCall {stack slots : List Slot} {below : Stack}
    (hsplit : splitCall [] stack = some (slots, below)) {slot : Slot} (h : slot ∈ below) :
    slot ∈ stack := by
  obtain ⟨taken, -, rfl⟩ := eq_append_of_splitCall hsplit
  simp [h]

/-- Behind what ends at once, a block on the stack was there before or has just been cut off. -/
theorem blocks_of_ended {after : Stack} (hsound : c.IsSound)
    (hnext : c.next? = some (.done (.ended after, rest) s)) :
    ∃ instruction more, c.program = instruction :: more ∧
      (instruction ≠ .startBlock ∧ rest = more ∧
          (∀ body, .block body ∈ after → .block body ∈ c.stack) ∨
        instruction = .startBlock ∧ ∃ body, splitBlock 0 more = some (body, rest) ∧
          ∀ body', .block body' ∈ after → body' = body ∨ .block body' ∈ c.stack) := by
  have hturns := turns_of_next? hsound hnext
  generalize hhalf : Turn.ended after = half, s.env = env at hturns
  cases hturns with
  | @push instruction _ slot heq hslot =>
    cases hhalf
    refine ⟨instruction, _, heq, .inl ⟨?_, rfl, fun body hmem => ?_⟩⟩
    · rintro rfl
      cases hslot
    · rcases List.mem_cons.1 hmem with rfl | hmem
      · cases instruction <;> cases hslot
      · exact hmem
  | @block more body _ heq hsplit =>
    cases hhalf
    refine ⟨.startBlock, more, heq, .inr ⟨rfl, body, hsplit, fun body' hmem => ?_⟩⟩
    rcases List.mem_cons.1 hmem with heq' | hmem
    · cases heq'
      exact .inl rfl
    · exact .inr hmem
  | comma heq =>
    cases hhalf
    exact ⟨_, _, heq, .inl ⟨nofun, rfl, fun _ => id⟩⟩
  | unary heq | binary heq | assign heq =>
    cases hhalf
    exact ⟨_, _, heq, .inl ⟨nofun, rfl, fun body hmem =>
      List.mem_of_mem_drop (block_mem_ofResult hmem)⟩⟩
  | question => cases hhalf
  | @call name target _ slots below heq hsplit =>
    refine ⟨_, _, heq, .inl ⟨nofun, rfl, fun body hmem => mem_of_splitCall hsplit ?_⟩⟩
    cases hresult : callResult c.state.env name target slots with
    | error e =>
      rw [hresult] at hhalf
      cases hhalf
      exact block_mem_ofResult (r := .error e) hmem
    | ok given =>
      rw [hresult] at hhalf
      cases given with
      | value v =>
        cases hhalf
        exact block_mem_ofResult (r := .ok v) hmem
      | formula => cases hhalf

/-- A step goes on with blocks of the program. -/
theorem Config.HoldsBlocks.ended {after : Stack} (h : c.HoldsBlocks P) (hsound : c.IsSound)
    (hnext : c.next? = some (.done (.ended after, rest) s)) :
    Config.HoldsBlocks P ⟨rest, after, s⟩ := by
  have hprogram := h.program
  obtain ⟨instruction, more, heq, ⟨hplain, rfl, hblocks⟩ | ⟨rfl, body, hsplit, hblocks⟩⟩ :=
    blocks_of_ended hsound hnext
  · rw [heq] at hprogram
    exact ⟨hprogram.tail hplain, fun body hmem => h.stack body (hblocks body hmem)⟩
  · rw [heq] at hprogram
    obtain ⟨body', rest', hsplit', hbody, hrest⟩ := hprogram.split
    cases hsplit.symm.trans hsplit'
    refine ⟨hrest, fun body' hmem => ?_⟩
    rcases hblocks body' hmem with rfl | hmem
    · exact hbody
    · exact h.stack body' hmem

/-- What is left when something nested is run, and a branch is a block of the program. -/
theorem Config.HoldsBlocks.pending {inner : Inner} {below : Stack} (h : c.HoldsBlocks P)
    (hsound : c.IsSound) (hnext : c.next? = some (.done (.pending inner below, rest) s)) :
    HasBlocks P rest ∧ (∀ body, .block body ∈ below → P body) ∧
      ∀ body, inner = .branch body → P body := by
  have hturns := turns_of_next? hsound hnext
  have hprogram := h.program
  generalize hhalf : Turn.pending inner below = half, s.env = env at hturns
  cases hturns with
  | @question _ body second first _ heq hbranches hbody =>
    cases hhalf
    rw [heq] at hprogram
    have hmem : ∀ slot ∈ .block second :: .block first :: below, slot ∈ c.stack :=
      fun slot hslot => List.mem_of_mem_drop (hbranches ▸ hslot)
    refine ⟨hprogram.tail nofun, fun body' hbelow => ?_, fun body' hbranch => ?_⟩
    · exact h.stack body' (hmem _ (.tail _ (.tail _ hbelow)))
    · cases hbranch
      rcases hbody with rfl | rfl
      · exact h.stack _ (hmem _ (.head _))
      · exact h.stack _ (hmem _ (.tail _ (.head _)))
  | @call name target _ slots below' heq hsplit =>
    rw [heq] at hprogram
    cases hresult : callResult c.state.env name target slots with
    | error e =>
      rw [hresult] at hhalf
      cases hhalf
    | ok given =>
      rw [hresult] at hhalf
      cases given with
      | value v => cases hhalf
      | formula =>
        cases hhalf
        refine ⟨hprogram.tail nofun, fun body hmem => ?_, nofun⟩
        exact h.stack body (mem_of_splitCall hsplit hmem)
  | _ => cases hhalf

/-- All the way, the blocks are those of the program. -/
theorem Launch.holdsBlocks_of_visits {l : Launch} (h : HasBlocks P l.program)
    (hvisits : l.Visits c) : c.HoldsBlocks P := by
  have hpush {r : Except Error Value} {rest : Program} {below : Stack} {s : State}
      (hrest : HasBlocks P rest) (hbelow : ∀ body, .block body ∈ below → P body) :
      Config.HoldsBlocks P ⟨rest, .ofResult r :: below, s⟩ :=
    ⟨hrest, fun body hmem => hbelow body (block_mem_ofResult hmem)⟩
  refine hvisits.induct (P := Config.HoldsBlocks P) ⟨h, nofun⟩ fun c c' hvisits hc hmove => ?_
  have hsound := isSound_of_visits hvisits
  cases hmove with
  | ended hnext => exact hc.ended hsound hnext
  | @refused _ _ _ _ e hnext =>
    obtain ⟨hrest, hbelow, -⟩ := hc.pending hsound hnext
    exact hpush (r := .error e) hrest hbelow
  | returned hnext =>
    obtain ⟨hrest, hbelow, -⟩ := hc.pending hsound hnext
    exact hpush hrest hbelow

end Reckoner.Machine
