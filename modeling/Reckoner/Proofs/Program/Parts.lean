import Reckoner.Proofs.Program.Clauses

/-!
The parts of a tree. A part that compiles is emitted by a clause of its own, and a tree that is not
plain has brackets somewhere that hold a comma list of plain expressions.
-/

namespace Reckoner.Tree

mutual

def parts : Tree → List Tree
  | leaf token => [leaf token]
  | node rule children => node rule children :: partsAll children

def partsAll : List Tree → List Tree
  | [] => []
  | child :: more => child.parts ++ partsAll more

end

theorem partsAll_eq (trees : List Tree) : partsAll trees = trees.flatMap parts := by
  induction trees with
  | nil => rfl
  | cons tree more ih => rw [partsAll, ih, List.flatMap_cons]

theorem mem_parts_self (tree : Tree) : tree ∈ tree.parts := by
  cases tree <;> simp [parts]

theorem mem_parts_node {part : Tree} {rule : Rule} {children : List Tree} :
    part ∈ (node rule children).parts ↔
      part = node rule children ∨ ∃ child ∈ children, part ∈ child.parts := by
  rw [parts, partsAll_eq, List.mem_cons, List.mem_flatMap]

/-- The parts of a plain tree are plain. -/
theorem isPlain_of_mem_parts {part : Tree} :
    (tree : Tree) → tree.isPlain → part ∈ tree.parts → part.isPlain
  | leaf token, _, hpart => by
    rw [parts, List.mem_singleton] at hpart
    rw [hpart, isPlain]
  | node rule children, hplain, hpart => by
    rcases mem_parts_node.1 hpart with rfl | ⟨child, hchild, hpart⟩
    · exact hplain
    · exact isPlain_of_mem_parts child (isPlain_of_mem hplain hchild) hpart

theorem mem_parts_leaf {part : Tree} {token : Token} :
    part ∈ (leaf token).parts ↔ part = leaf token := by
  rw [parts, List.mem_singleton]

def arguments? : Tree → Option (List Tree)
  | node .suffix [_, _, _] => some []
  | node .suffix [_, _, node .arguments args, _] => some args
  | _ => none

def callee? : Tree → Option String
  | node .suffix [callee, _, _] | node .suffix [callee, _, _, _] => callee.name?
  | _ => none

end Reckoner.Tree

namespace Reckoner.Program

open Reckoner.Tree

variable {registry : Registry} {tree : Tree} {code : Program}

/-- A list of arguments is no expression. -/
theorem compile_arguments_ne {args : List (Tree × Program)} {code : Program}
    (h : ∀ arg ∈ args, Emits registry arg.1 arg.2) :
    compile registry (.node .arguments (args.map Prod.fst)) ≠ .ok code := by
  intro hcompile
  match args, h with
  | [], _ | [_], _ | [_, _], _ | _ :: _ :: _ :: _ :: _, _ => simp [compile] at hcompile
  | [left, op, right], h =>
    simp only [List.map_cons, List.map_nil, compile] at hcompile
    obtain ⟨l, -, hcompile⟩ := bind_eq_ok.1 hcompile
    obtain ⟨r, -, hcompile⟩ := bind_eq_ok.1 hcompile
    obtain ⟨o, ho, -⟩ := bind_eq_ok.1 hcompile
    have hop := h op (by simp)
    generalize op.1 = tree, op.2 = code at hop ho
    cases hop with
    | leaf htoken =>
      have hop := operatorOf_eq_ok ho
      rw [operator?_eq_none_of_ofToken htoken] at hop
      cases hop
    | _ => cases ho

/-- Every part that compiles is emitted by a clause of its own. -/
theorem emits_of_mem_parts (h : Emits registry tree code) {part : Tree} {code' : Program}
    (hpart : part ∈ tree.parts) (hcompile : compile registry part = .ok code') :
    Emits registry part code' := by
  have hleaf {token : Token} (hpart : part ∈ (Tree.leaf token).parts) :
      Emits registry part code' := by
    rw [Tree.mem_parts_leaf] at hpart
    rw [hpart, compile] at hcompile
    rw [hpart]
    exact .leaf hcompile
  have hnode {rule : Rule} {children : List Tree} {code : Program}
      (h : Emits registry (.node rule children) code)
      (hchildren : ∀ child ∈ children, part ∈ child.parts → Emits registry part code')
      (hpart : part ∈ (Tree.node rule children).parts) : Emits registry part code' := by
    rcases Tree.mem_parts_node.1 hpart with rfl | ⟨child, hchild, hpart⟩
    · rw [compile_of_emits h] at hcompile
      cases hcompile
      exact h
    · exact hchildren child hchild hpart
  induction h with
  | leaf => exact hleaf hpart
  | list hl hr hsingle ihl ihr =>
    refine hnode (.list hl hr hsingle) ?_ hpart
    simp only [List.forall_mem_cons]
    exact ⟨ihl, hleaf, ihr, List.forall_mem_nil _⟩
  | assign hname hop hvalue hsingle ih =>
    refine hnode (.assign hname hop hvalue hsingle) ?_ hpart
    simp only [List.forall_mem_cons]
    exact ⟨hleaf, hleaf, ih, List.forall_mem_nil _⟩
  | compound hname hop hbase hvalue hsingle ih =>
    refine hnode (.compound hname hop hbase hvalue hsingle) ?_ hpart
    simp only [List.forall_mem_cons]
    exact ⟨hleaf, hleaf, ih, List.forall_mem_nil _⟩
  | choice hfirst hsecond hcondition hsingle hsecondSingle iha ihb ihc =>
    refine hnode (.choice hfirst hsecond hcondition hsingle hsecondSingle) ?_ hpart
    simp only [List.forall_mem_cons]
    exact ⟨ihc, hleaf, iha, hleaf, ihb, List.forall_mem_nil _⟩
  | stepFirst hop hname hstep =>
    refine hnode (.stepFirst hop hname hstep) ?_ hpart
    simp only [List.forall_mem_cons]
    exact ⟨hleaf, hleaf, List.forall_mem_nil _⟩
  | prefixed hop hstep hone hvalue hsingle ih =>
    refine hnode (.prefixed hop hstep hone hvalue hsingle) ?_ hpart
    simp only [List.forall_mem_cons]
    exact ⟨hleaf, ih, List.forall_mem_nil _⟩
  | stepAfter hname hop =>
    refine hnode (.stepAfter hname hop) ?_ hpart
    simp only [List.forall_mem_cons]
    exact ⟨hleaf, hleaf, List.forall_mem_nil _⟩
  | emptyCall hname hf hadded =>
    refine hnode (.emptyCall hname hf hadded) ?_ hpart
    simp only [List.forall_mem_cons]
    exact ⟨hleaf, hleaf, hleaf, List.forall_mem_nil _⟩
  | call hname hf hargs hsingle hadded ih =>
    refine hnode (.call hname hf hargs hsingle hadded) ?_ hpart
    simp only [List.forall_mem_cons]
    refine ⟨hleaf, hleaf, ?_, hleaf, List.forall_mem_nil _⟩
    intro hpart
    rcases Tree.mem_parts_node.1 hpart with rfl | ⟨child, hchild, hpart⟩
    · exact absurd hcompile (compile_arguments_ne hargs)
    · obtain ⟨arg, harg, rfl⟩ := List.mem_map.1 hchild
      exact ih arg harg hpart
  | group hinner ih =>
    refine hnode (.group hinner) ?_ hpart
    simp only [List.forall_mem_cons]
    exact ⟨hleaf, ih, hleaf, List.forall_mem_nil _⟩
  | operation hrule hop htwo hl hr hleftSingle hrightSingle ihl ihr =>
    refine hnode (.operation hrule hop htwo hl hr hleftSingle hrightSingle) ?_ hpart
    simp only [List.forall_mem_cons]
    exact ⟨ihl, hleaf, ihr, List.forall_mem_nil _⟩

def HoldsList (registry : Registry) (tree : Tree) : Prop :=
  ∃ left inner right code, Tree.node .group [.leaf left, inner, .leaf right] ∈ tree.parts ∧
    inner.isList ∧ inner.isPlain ∧ Emits registry inner code

theorem holdsList_of_mem {rule : Rule} {children : List Tree} {child : Tree}
    (hchild : child ∈ children) (h : HoldsList registry child) :
    HoldsList registry (.node rule children) := by
  obtain ⟨left, inner, right, code, hpart, hinner⟩ := h
  exact ⟨left, inner, right, code, Tree.mem_parts_node.2 (.inr ⟨child, hchild, hpart⟩), hinner⟩

/-- Innermost brackets that hold a list hold one with plain parts. -/
theorem holdsList_of_emits (h : Emits registry tree code) (hplain : tree.isPlain = false) :
    HoldsList registry tree := by
  have hleaf {token : Token} (hplain : (Tree.leaf token).isPlain = false) :
      HoldsList registry (.leaf token) := by
    rw [Tree.isPlain] at hplain
    cases hplain
  have hnode {rule : Rule} {children : List Tree}
      (hchildren : ∀ child ∈ children, child.isPlain = false → HoldsList registry child)
      (hgroup : rule = .group → ∀ child ∈ children, child.isList = false)
      (hplain : (Tree.node rule children).isPlain = false) :
      HoldsList registry (.node rule children) := by
    by_contra hholds
    have hall : ∀ child ∈ children, child.isPlain := by
      intro child hchild
      by_contra hnot
      exact hholds (holdsList_of_mem hchild (hchildren child hchild (by simpa using hnot)))
    have hcontra : (Tree.node rule children).isPlain :=
      Tree.isPlain_node.2 ⟨hgroup, hall⟩
    rw [hplain] at hcontra
    cases hcontra
  induction h with
  | leaf => exact hleaf hplain
  | list _ _ _ ihl ihr =>
    refine hnode ?_ (by simp) hplain
    simp only [List.forall_mem_cons]
    exact ⟨ihl, hleaf, ihr, List.forall_mem_nil _⟩
  | assign _ _ _ _ ih | compound _ _ _ _ _ ih =>
    refine hnode ?_ (by simp) hplain
    simp only [List.forall_mem_cons]
    exact ⟨hleaf, hleaf, ih, List.forall_mem_nil _⟩
  | choice _ _ _ _ _ iha ihb ihc =>
    refine hnode ?_ (by simp) hplain
    simp only [List.forall_mem_cons]
    exact ⟨ihc, hleaf, iha, hleaf, ihb, List.forall_mem_nil _⟩
  | stepFirst | stepAfter =>
    refine hnode ?_ (by simp) hplain
    simp only [List.forall_mem_cons]
    exact ⟨hleaf, hleaf, List.forall_mem_nil _⟩
  | prefixed _ _ _ _ _ ih =>
    refine hnode ?_ (by simp) hplain
    simp only [List.forall_mem_cons]
    exact ⟨hleaf, ih, List.forall_mem_nil _⟩
  | emptyCall =>
    refine hnode ?_ (by simp) hplain
    simp only [List.forall_mem_cons]
    exact ⟨hleaf, hleaf, hleaf, List.forall_mem_nil _⟩
  | call _ _ _ _ _ ih =>
    refine hnode ?_ (by simp) hplain
    simp only [List.forall_mem_cons]
    refine ⟨hleaf, hleaf, hnode ?_ (by simp), hleaf, List.forall_mem_nil _⟩
    intro child hchild
    obtain ⟨arg, harg, rfl⟩ := List.mem_map.1 hchild
    exact ih arg harg
  | @group left right inner code hinner ih =>
    by_cases hinnerPlain : inner.isPlain
    · by_cases hlist : inner.isList
      · exact ⟨left, inner, right, code, Tree.mem_parts_self _, hlist, hinnerPlain, hinner⟩
      · refine hnode ?_ (fun _ => ?_) hplain
        · simp only [List.forall_mem_cons]
          exact ⟨hleaf, ih, hleaf, List.forall_mem_nil _⟩
        · simp only [List.forall_mem_cons]
          exact ⟨rfl, by simpa using hlist, rfl, List.forall_mem_nil _⟩
    · exact holdsList_of_mem (.tail _ (.head _)) (ih (by simpa using hinnerPlain))
  | operation hrule _ _ _ _ _ _ ihl ihr =>
    refine hnode ?_ (fun heq => ?_) hplain
    · simp only [List.forall_mem_cons]
      exact ⟨ihl, hleaf, ihr, List.forall_mem_nil _⟩
    · subst heq
      cases hrule

/-- A comma list has two expressions at least. -/
theorem two_le_length_elements (h : Emits registry tree code) (hlist : tree.isList) :
    2 ≤ tree.elements.length := by
  have hpos : ∀ t : Tree, 1 ≤ t.elements.length := by
    intro t
    unfold Tree.elements
    split <;> simp
  cases h with
  | @list sep left right l r hl hr hsingle =>
    have hleft := hpos left
    rw [Tree.elements, List.length_append, List.length_singleton]
    omega
  | operation hrule =>
    rw [isList_of_isInfix hrule] at hlist
    cases hlist
  | _ => cases hlist

end Reckoner.Program
