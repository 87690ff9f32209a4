import Mathlib
import Reckoner.Proofs.Machine.Invocations
import Reckoner.Proofs.Machine.Sites

/-!
What the arguments of a call supply. Each written argument leaves as many entries as its tree is
wide, one after the other above the mark of the call, and an absent value follows for each argument
that was left out. So the function is shown as many arguments as it declares, or as were written if
these are more, exactly when no written argument is wider than one.
-/

namespace Reckoner.Machine

open Program

variable {registry : Registry} {runner : Runner} {depth : Nat}

/-- From one state to another, the code of each argument in turn leaves these entries, the oldest
first. -/
inductive Supplies (runner : Runner) (depth : Nat) :
    List (Tree × Program) → State → List (List Slot) → State → Prop where
  | nil (s : State) : Supplies runner depth [] s [] s
  | cons {arg : Tree × Program} {more : List (Tree × Program)} {left : Stack}
      {groups : List (List Slot)} {s s' s'' : State}
      (hfirst : perform runner depth arg.2 [] s = .done left s')
      (hmore : Supplies runner depth more s' groups s'') :
      Supplies runner depth (arg :: more) s (left.reverse :: groups) s''

/-- What the code of a tree leaves can be read. -/
theorem ends_isReadable {tree : Tree} {code : Program} (h : Emits registry tree code) :
    Ends (perform runner depth code []) fun stack => ∀ slot ∈ stack, slot.shape.isReadable := by
  have hcode := (carries_of_emits (isHandedBack_ends registry runner depth
    fun stack => ∀ slot ∈ stack, slot.shape.isReadable) h) [] [] fun slots _ hread => by
      dsimp only
      rw [perform_nil, List.append_nil]
      exact ends_pure hread
  rwa [List.append_nil] at hcode

namespace Supplies

variable {args : List (Tree × Program)} {groups : List (List Slot)} {s s' : State}

/-- An argument supplies as many entries as it is wide, and all of them can be read. -/
theorem forall₂ (h : Supplies runner depth args s groups s')
    (hemits : ∀ arg ∈ args, Emits registry arg.1 arg.2) :
    List.Forall₂ (fun arg group => group.length = arg.1.width ∧
      ∀ slot ∈ group, slot.shape.isReadable) args groups := by
  induction h with
  | nil => exact .nil
  | @cons arg more left groups s s' s'' hfirst _ ih =>
    have harg := hemits arg (.head _)
    refine .cons ⟨?_, fun slot hslot => ?_⟩ (ih fun a ha => hemits a (.tail _ ha))
    · rw [List.length_reverse]
      exact ends_length harg hfirst
    · exact ends_isReadable harg hfirst slot (List.mem_reverse.1 hslot)

theorem isReadable (h : Supplies runner depth args s groups s')
    (hemits : ∀ arg ∈ args, Emits registry arg.1 arg.2) :
    ∀ slot ∈ groups.flatten, slot.shape.isReadable := by
  have hgroups := h.forall₂ hemits
  clear h
  induction hgroups with
  | nil => nofun
  | cons hfirst _ ih =>
    intro slot hslot
    rw [List.flatten_cons] at hslot
    rcases List.mem_append.1 hslot with hslot | hslot
    · exact hfirst.2 slot hslot
    · exact ih (fun a ha => hemits a (.tail _ ha)) slot hslot

theorem length_flatten (h : Supplies runner depth args s groups s')
    (hemits : ∀ arg ∈ args, Emits registry arg.1 arg.2) :
    groups.flatten.length = (args.map fun arg => arg.1.width).sum := by
  have hgroups := h.forall₂ hemits
  clear h
  induction hgroups with
  | nil => rfl
  | cons hfirst _ ih =>
    rw [List.flatten_cons, List.length_append, List.map_cons, List.sum_cons, hfirst.1,
      ih fun a ha => hemits a (.tail _ ha)]

end Supplies

/-- The arguments are performed one after the other, and leave their entries on top. -/
theorem supplies_of_perform {args : List (Tree × Program)} {tail : Program} {below stack : Stack}
    {s s' : State} (hemits : ∀ arg ∈ args, Emits registry arg.1 arg.2)
    (h : perform runner depth (args.flatMap Prod.snd ++ tail) below s = .done stack s') :
    ∃ groups t, Supplies runner depth args s groups t ∧
      perform runner depth tail (groups.flatten.reverse ++ below) t = .done stack s' := by
  induction args generalizing below s with
  | nil => exact ⟨[], s, .nil s, h⟩
  | cons arg more ih =>
    rw [List.flatMap_cons, List.append_assoc, perform_emitted (hemits arg (.head _)),
      bind_eq_done] at h
    obtain ⟨left, t, hfirst, hmore⟩ := h
    obtain ⟨groups, t', hsupplies, htail⟩ := ih (fun a ha => hemits a (.tail _ ha)) hmore
    refine ⟨left.reverse :: groups, t', .cons hfirst hsupplies, ?_⟩
    rw [List.flatten_cons, List.reverse_append, List.reverse_reverse, List.append_assoc]
    exact htail

theorem perform_replicate (count : Nat) (v : Value) (stack : Stack) :
    perform runner depth (List.replicate count (.value v)) stack =
      pure (List.replicate count (.value v) ++ stack) := by
  induction count generalizing stack with
  | zero => rw [List.replicate_zero, perform_nil, List.replicate_zero, List.nil_append]
  | succ count ih =>
    rw [List.replicate_succ, perform_value, ih, List.replicate_succ', List.append_assoc,
      List.singleton_append]

/-- At the call of a site, the entries above its mark are what the arguments left, and an absent
value for each argument that was left out. -/
theorem Site.IsMet.supplies {site : Site} {start c : Config}
    (h : site.IsMet runner depth start c)
    (hemits : ∀ arg ∈ site.args, Emits registry arg.1 arg.2) :
    ∃ more below s groups, c.program = .call site.name (some site.function.id) :: more ∧
      Reaches runner depth start ⟨site.code ++ more, below, s⟩ ∧
      Supplies runner depth site.args s groups c.state ∧
      splitCall [] c.stack =
        some (groups.flatten ++ List.replicate site.missing (.value .null), below) := by
  obtain ⟨more, below, s, hprogram, hsite, hthrough⟩ := h
  have hlead : perform runner depth (site.lead ++ []) below s = .done c.stack c.state := by
    have hfinish := finish_reaches (hthrough [])
    rw [Config.finish, Config.finish, perform_nil] at hfinish
    exact hfinish
  rw [List.append_nil, Site.lead, List.append_assoc, List.singleton_append,
    perform_openCall] at hlead
  obtain ⟨groups, t, hsupplies, htail⟩ := supplies_of_perform hemits hlead
  rw [perform_replicate, pure_eq] at htail
  obtain ⟨hstack, rfl⟩ := Outcome.done.inj htail
  refine ⟨more, below, s, groups, hprogram, hsite, hsupplies, ?_⟩
  have hmark : Slot.openCall ∉
      List.replicate site.missing (Slot.value .null) ++ groups.flatten.reverse := by
    refine openCall_notMem fun slot hslot => ?_
    rcases List.mem_append.1 hslot with hslot | hslot
    · rw [List.eq_of_mem_replicate hslot]
      rfl
    · exact hsupplies.isReadable hemits slot (List.mem_reverse.1 hslot)
  rw [← hstack, ← List.append_assoc, splitCall_append hmark]
  simp

/-- What is absent is shown as absent. -/
theorem eq_null_of_convertArgument {arg : Value} {kinds : Kinds}
    (h : convertArgument .null kinds = some arg) : arg = .null := by
  unfold convertArgument at h
  split at h
  · cases h
    rfl
  · unfold Value.convert at h
    split at h
    · cases h
      rfl
    · simp [Value.toBoolean?, Value.toInteger?, Value.toReal?, Value.toText?] at h

/-! Counting them. -/

theorem sum_width_eq_length_iff (args : List (Tree × Program)) :
    args.length ≤ (args.map fun arg => arg.1.width).sum ∧
      ((args.map fun arg => arg.1.width).sum = args.length ↔ ∀ arg ∈ args, arg.1.width = 1) := by
  induction args with
  | nil => simp
  | cons arg more ih =>
    obtain ⟨hle, hiff⟩ := ih
    have hpos := arg.1.one_le_width
    rw [List.map_cons, List.sum_cons, List.length_cons, List.forall_mem_cons]
    refine ⟨by omega, fun heq => ?_, fun ⟨hfirst, hmore⟩ => ?_⟩
    · exact ⟨by omega, hiff.1 (by omega)⟩
    · have := hiff.2 hmore
      omega

namespace Supplies

variable {site : Site} {groups : List (List Slot)} {s s' : State} {env : Environment} {f : Function}
  {args : List Value}

/-- The function is shown one argument for each that was written, and as many as it declares, just
when every written argument leaves one entry. -/
theorem length_eq_max_iff (hsupplies : Supplies runner depth site.args s groups s')
    (hemits : ∀ arg ∈ site.args, Emits registry arg.1 arg.2)
    (htyped : IsTyped env f (groups.flatten ++ List.replicate site.missing (.value .null)) args) :
    args.length = max site.args.length site.function.arity ↔
      ∀ arg ∈ site.args, arg.1.width = 1 := by
  obtain ⟨hle, hiff⟩ := sum_width_eq_length_iff site.args
  rw [← hiff, htyped.length, List.length_append, List.length_replicate,
    hsupplies.length_flatten hemits, Site.missing]
  omega

/-- Arguments that leave one entry each. -/
theorem exists_entries {written : List (Tree × Program)}
    (hsupplies : Supplies runner depth written s groups s')
    (hemits : ∀ arg ∈ written, Emits registry arg.1 arg.2)
    (hwidth : ∀ arg ∈ written, arg.1.width = 1) :
    ∃ entries : List Slot, entries.length = written.length ∧
      groups = entries.map fun slot => [slot] := by
  have hgroups := hsupplies.forall₂ hemits
  clear hsupplies
  induction hgroups with
  | nil => exact ⟨[], rfl, rfl⟩
  | @cons arg group _ _ hfirst _ ih =>
    obtain ⟨entries, hlength, rfl⟩ :=
      ih (fun a ha => hemits a (.tail _ ha)) fun a ha => hwidth a (.tail _ ha)
    obtain ⟨slot, rfl⟩ := List.length_eq_one_iff.1 (hfirst.1.trans (hwidth arg (.head _)))
    exact ⟨slot :: entries, congrArg (· + 1) hlength, rfl⟩

end Supplies

/-- Behind the entries of the written arguments all are absent. -/
theorem IsTyped.eq_null {env : Environment} {f : Function} {slots : List Slot} {count i : Nat}
    {args : List Value} {arg : Value}
    (h : IsTyped env f (slots ++ List.replicate count (.value .null)) args)
    (harg : args[i]? = some arg) (hi : slots.length ≤ i) : arg = .null := by
  have hlt := (List.getElem?_eq_some_iff.1 harg).1
  rw [h.length, List.length_append, List.length_replicate] at hlt
  have hslot : (slots ++ List.replicate count (Slot.value .null))[i]? = some (.value .null) := by
    rw [List.getElem?_append_right hi, List.getElem?_replicate_of_lt (by omega)]
  obtain ⟨v, arg', hlook, harg', hconvert, -⟩ := h.read i _ hslot
  cases hlook
  cases harg.symm.trans harg'
  exact eq_null_of_convertArgument hconvert

end Reckoner.Machine
