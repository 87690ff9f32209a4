import Mathlib
import Reckoner.Proofs.Function.Caches

/-!
Absent values in programs. Emitted code has them for the arguments that a call leaves out and for
nothing else, right before the call. A program is read here from any instruction on, with so many
absent values before it that the call is still to come for.
-/

namespace Reckoner

structure Function.MayOmit (f : Function) (missing : Nat) : Prop where
  declared : missing ≤ f.arity
  optional : f.signature.optionalFrom (f.arity - missing)

namespace Program

/-- A call leaves out what it may leave out. -/
theorem mayOmit_of_omitted {name : String} {f : Function} {count : Nat} {added : Program}
    (h : omitted name f count = .ok added) : f.MayOmit (f.arity - count) := by
  refine ⟨Nat.sub_le .., ?_⟩
  by_cases hcount : count < f.arity
  · rw [Nat.sub_sub_self hcount.le]
    exact (Signature.canTake_of_lt hcount).1 (omitted_eq_ok.1 h).1
  · rw [Nat.sub_eq_zero_of_le (Nat.not_lt.1 hcount), Nat.sub_zero, Signature.optionalFrom,
      Function.arity, Signature.arity, List.drop_length]
    rfl

/-- Where arguments are left out, and behind all that are declared, being absent is accepted. -/
theorem absent_kindsAt {f : Function} {missing i : Nat} (h : f.MayOmit missing)
    (hmissing : 0 < missing) (hi : f.arity - missing ≤ i) : (f.signature.kindsAt i).absent := by
  obtain ⟨hdeclared, hoptional⟩ := h
  have hless : f.arity - missing < f.signature.kinds.length :=
    Nat.sub_lt (hmissing.trans_le hdeclared) hmissing
  generalize f.arity - missing = written at hoptional hi hless
  have hall : ∀ kinds ∈ f.signature.kinds.drop written, kinds.absent := List.all_eq_true.1 hoptional
  rw [Signature.kindsAt]
  cases hget : f.signature.kinds[i]? with
  | some kinds =>
    refine hall kinds (List.mem_of_getElem? (i := i - written) ?_)
    rw [List.getElem?_drop, Nat.add_sub_cancel' hi]
    exact hget
  | none =>
    -- Behind the declared arguments it is the last one that counts.
    have hne : f.signature.kinds.drop written ≠ [] := by
      rw [Ne, List.drop_eq_nil_iff]
      exact Nat.not_le.2 hless
    have hlast :
        f.signature.kinds.getLast? = some ((f.signature.kinds.drop written).getLast hne) := by
      rw [← List.getLast?_eq_some_getLast hne, List.getLast?_drop, if_neg (Nat.not_le.2 hless)]
    rw [Option.none_or, hlast]
    exact hall _ (List.getLast_mem hne)

def isPlain : Instruction → Bool
  | .value .null | .call _ _ => false
  | _ => true

/-- So many absent values are there already, and only others come before the call that they are for.
What is known of calls holds of each one, with the number of its absent values. -/
inductive IsGuarded (Q : Option FunctionId → Nat → Prop) : Nat → Program → Prop where
  | nil : IsGuarded Q 0 []
  | plain {instruction : Instruction} {more : Program} (hplain : isPlain instruction)
      (hmore : IsGuarded Q 0 more) : IsGuarded Q 0 (instruction :: more)
  | absent {count : Nat} {more : Program} (hmore : IsGuarded Q (count + 1) more) :
      IsGuarded Q count (.value .null :: more)
  | call {name : String} {target : Option FunctionId} {count : Nat} {more : Program}
      (hcall : Q target count) (hmore : IsGuarded Q 0 more) :
      IsGuarded Q count (.call name target :: more)

namespace IsGuarded

variable {Q : Option FunctionId → Nat → Prop} {count : Nat} {code code' : Program}
  {instruction : Instruction}

theorem append (h : IsGuarded Q count code) (h' : IsGuarded Q 0 code') :
    IsGuarded Q count (code ++ code') := by
  induction h with
  | nil => exact h'
  | plain hplain _ ih => exact .plain hplain ih
  | absent _ ih => exact .absent ih
  | call hcall _ ih => exact .call hcall ih

theorem single (hplain : isPlain instruction) : IsGuarded Q 0 [instruction] := .plain hplain .nil

theorem of_forall (h : ∀ instruction ∈ code, isPlain instruction) : IsGuarded Q 0 code := by
  induction code with
  | nil => exact .nil
  | cons instruction more ih =>
    obtain ⟨hplain, hmore⟩ := List.forall_mem_cons.1 h
    exact .plain hplain (ih hmore)

theorem flatMap {args : List (Tree × Program)} (h : ∀ arg ∈ args, IsGuarded Q 0 arg.2) :
    IsGuarded Q 0 (args.flatMap Prod.snd) := by
  induction args with
  | nil => exact .nil
  | cons arg more ih =>
    obtain ⟨harg, hmore⟩ := List.forall_mem_cons.1 h
    rw [List.flatMap_cons]
    exact harg.append (ih hmore)

/-- The end of a call. -/
theorem replicate_append_call {name : String} {target : Option FunctionId} {added : Nat}
    (hcall : Q target (count + added)) :
    IsGuarded Q count (List.replicate added (.value .null) ++ [.call name target]) := by
  induction added generalizing count with
  | zero => exact .call hcall .nil
  | succ added ih =>
    rw [List.replicate_succ, List.cons_append]
    refine .absent (ih ?_)
    rwa [Nat.add_assoc, Nat.add_comm 1]

/-- Before anything else no absent value is there. -/
theorem of_plain (h : IsGuarded Q count (instruction :: code)) (hplain : isPlain instruction) :
    count = 0 ∧ IsGuarded Q 0 code := by
  cases h with
  | plain _ hmore => exact ⟨rfl, hmore⟩
  | absent | call => cases hplain

/-- What is behind a block. -/
theorem of_endBlock (h : IsGuarded Q count (code ++ .endBlock :: code')) : IsGuarded Q 0 code' := by
  induction code generalizing count with
  | nil => exact (h.of_plain rfl).2
  | cons instruction more ih =>
    cases h with
    | plain _ hmore => exact ih hmore
    | absent hmore => exact ih hmore
    | call _ hmore => exact ih hmore

end IsGuarded

variable {registry : Registry} {tree : Tree} {code : Program}
  {Q : Option FunctionId → Nat → Prop}

/-- In the code of a tree each call has an absent value for every argument that is left out. -/
theorem isGuarded_of_emits
    (hQ : ∀ f ∈ registry.functions, ∀ missing, f.MayOmit missing → Q (some f.id) missing)
    (h : Emits registry tree code) : IsGuarded Q 0 code := by
  have hone (op : Operator) : IsGuarded Q 0 [.operator op] := .single rfl
  have hname (name : String) : IsGuarded Q 0 [.name name] := .single rfl
  have hopen : IsGuarded Q 0 [.openCall] := .single rfl
  have hstep (name : String) (op : Operator) : IsGuarded Q 0 (step name op) :=
    .of_forall (by simp [step, isPlain])
  have hcall {name : String} {f : Function} {count : Nat} {added : Program}
      (hf : choose registry name count = .ok f) (hadded : omitted name f count = .ok added) :
      IsGuarded Q 0 (added ++ [.call name (some f.id)]) := by
    rw [eq_replicate_of_omitted hadded]
    refine .replicate_append_call ?_
    rw [Nat.zero_add]
    exact hQ f (exists_function_of_choose hf).1 _ (mayOmit_of_omitted hadded)
  induction h with
  | leaf h =>
    unfold ofToken at h
    split at h <;> cases h <;> exact .single rfl
  | list _ _ _ ihl ihr => exact (ihl.append ihr).append (hone _)
  | assign _ _ _ _ ih => exact ((hname _).append ih).append (hone _)
  | compound _ _ _ _ _ ih =>
    exact (((hname _).append (hname _)).append ih).append ((hone _).append (hone _))
  | choice _ _ _ _ _ iha ihb ihc =>
    have hstart : IsGuarded Q 0 [.startBlock] := .single rfl
    have hend : IsGuarded Q 0 [.endBlock] := .single rfl
    have hbranches := (((hstart.append iha).append (hend.append hstart)).append ihb).append hend
    exact (hbranches.append ihc).append (hone _)
  | stepFirst => exact hstep _ _
  | prefixed _ _ _ _ _ ih => exact ih.append (hone _)
  | stepAfter => exact (hstep _ _).append (.of_forall (by simp [undo, isPlain]))
  | emptyCall _ hf hadded =>
    rw [List.append_assoc]
    exact hopen.append (hcall hf hadded)
  | call _ hf _ _ hadded ih =>
    rw [List.append_assoc]
    exact (hopen.append (IsGuarded.flatMap ih)).append (hcall hf hadded)
  | group _ ih => exact ih
  | operation _ _ _ _ _ _ _ ihl ihr => exact (ihl.append ihr).append (hone _)

end Program

end Reckoner
