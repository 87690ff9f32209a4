import Reckoner.Proofs.Machine.Discipline
import Reckoner.Proofs.Machine.Fuel
import Reckoner.Proofs.Machine.Stacked

/-!
The elements of a comma list. Their programs run one after another as each of them would alone, and
leave an entry each: a value, or a variable that is read only when the whole list is done.
-/

namespace Reckoner

namespace Machine

open Program

def Slot.value? (env : Environment) : Slot → Option Value
  | .value v => some v
  | .name x => env.scope.get? x
  | .block _ | .openCall | .failed => none

theorem resolve_of_value? {slot : Slot} {v : Value} {s : State}
    (h : slot.value? s.env = some v) :
    ∃ journal, resolve slot s = .done (some v) { s with journal } := by
  cases slot with
  | value w =>
    cases h
    exact ⟨s.journal, rfl⟩
  | name name =>
    obtain ⟨found, hfind, rfl⟩ := Option.map_eq_some_iff.1 h
    obtain ⟨_, storage⟩ := found
    simp only [resolve, readName, bind_eq, environment, hfind]
    cases storage with
    | own w => exact ⟨s.journal, rfl⟩
    | shared id => exact ⟨.read id :: s.journal, rfl⟩
  | block | openCall | failed => cases h

theorem value?_of_resolve {slot : Slot} {v : Value} {s s' : State}
    (h : resolve slot s = .done (some v) s') :
    slot.value? s.env = some v ∧ s'.env = s.env := by
  cases slot with
  | value w =>
    cases h
    exact ⟨rfl, rfl⟩
  | name name =>
    simp only [resolve, readName, bind_eq, environment] at h
    cases hfind : s.env.scope.find? name with
    | none =>
      rw [hfind] at h
      cases h
    | some found =>
      obtain ⟨_, storage⟩ := found
      rw [hfind] at h
      cases storage <;> cases h <;> exact ⟨Option.map_eq_some_iff.2 ⟨_, hfind, rfl⟩, rfl⟩
  | block | openCall | failed => cases h

/-- Entries that have values are read without a failure. -/
theorem collect_of_value? {slots : List Slot} {values : List Value} {s : State}
    (h : slots.map (Slot.value? s.env) = values.map some) :
    ∃ journal, collect slots s = .done values { s with journal } := by
  induction slots generalizing values s with
  | nil =>
    obtain rfl := List.map_eq_nil_iff.1 h.symm
    exact ⟨s.journal, rfl⟩
  | cons slot more ih =>
    cases values with
    | nil => cases h
    | cons v values =>
      obtain ⟨hslot, hmore⟩ := List.cons.inj h
      obtain ⟨journal, hresolve⟩ := resolve_of_value? hslot
      obtain ⟨journal', hcollect⟩ := @ih values { s with journal } hmore
      refine ⟨journal', ?_⟩
      rw [collect, bind_eq, hresolve]
      simp only [bind_eq, hcollect]
      rfl

def entryOf (tree : Tree) (v : Value) : Slot :=
  match tree.variable? with
  | some name => .name name
  | none => .value v

/-- The program leaves these entries, oldest first, and each of them has a value then. -/
structure Performs (code : Program) (slots : List Slot) (env env' : Environment) : Prop where
  done : ∃ enough, ∀ fuel, enough ≤ fuel → ∀ journal, ∃ journal',
    perform (run fuel) 0 code [] ⟨env, journal, FirstError.none⟩ =
      .done slots.reverse ⟨env', journal', FirstError.none⟩
  keeps : Extends env env' env'
  read : ∀ slot ∈ slots, (slot.value? env').isSome

variable {registry registry' : Registry} {tree tree' : Tree} {code code' : Program}
  {slots : List Slot} {slot : Slot} {env env' env'' : Environment}

theorem performs_of_perform {fuel : Nat} {stack : Stack} {journal journal' : List Event}
    (h : perform (run fuel) 0 code [] ⟨env, journal, FirstError.none⟩ =
      .done stack ⟨env', journal', FirstError.none⟩)
    (hread : ∀ slot ∈ stack, (slot.value? env').isSome) :
    Performs code stack.reverse env env' := by
  -- The next element starts behind other events, and its neighbours may need more fuel.
  have hmore {fuel' : Nat} (hle : fuel ≤ fuel') (other : List Event) :
      ∃ journal', Extends env env' env' ∧
        perform (run fuel') 0 code [] ⟨env, other, FirstError.none⟩ =
          .done stack ⟨env', journal', FirstError.none⟩ := by
    have hbeside : Beside (Extends env) ⟨env, journal, FirstError.none⟩
        ⟨env, other, FirstError.none⟩ := ⟨.refl env, rfl⟩
    have hrel := @mirrors_perform_extends env _ _ 0
      (fun depth program => runBeside_run hle depth program) code [] _ _ hbeside
    rw [h] at hrel
    generalize perform (run fuel') 0 code [] ⟨env, other, FirstError.none⟩ = o at hrel ⊢
    cases hrel with
    | @done _ _ _ s' hstack hafter =>
      obtain ⟨after, journal', failure⟩ := s'
      obtain ⟨⟨hsame, hreset, hgrows⟩, hfailure⟩ := hafter
      cases hstack
      cases hsame
      cases hfailure
      exact ⟨journal', ⟨rfl, hreset, hgrows⟩, rfl⟩
  obtain ⟨-, hextends, -⟩ := hmore le_rfl []
  refine ⟨⟨fuel, fun fuel' hle other => ?_⟩, hextends, ?_⟩
  · obtain ⟨after, -, hdone⟩ := hmore hle other
    exact ⟨after, by rw [List.reverse_reverse, hdone]⟩
  · intro slot hslot
    exact hread slot (List.mem_reverse.1 hslot)

/-- An entry that has a value keeps having one, though a variable may have another. -/
theorem isSome_value? (h : Extends env env' env') (hslot : (slot.value? env).isSome) :
    (slot.value? env').isSome := by
  cases slot with
  | value v => rfl
  | name name => exact h.grows.isSome_get? hslot
  | block | openCall | failed => cases hslot

/-- The program of one more element goes on where those before it ended. -/
theorem Performs.comma (hemits : Emits registry tree code) (hemits' : Emits registry' tree' code')
    (h : Performs code slots env env') (h' : Performs code' [slot] env' env'') :
    Performs (code ++ code' ++ [.operator .comma]) (slots ++ [slot]) env env'' := by
  obtain ⟨enough, hdone⟩ := h.done
  obtain ⟨enough', hdone'⟩ := h'.done
  refine ⟨⟨max enough enough', fun fuel hle journal => ?_⟩, isBased_extends.trans h.keeps h'.keeps,
    ?_⟩
  · obtain ⟨journal₁, hfirst⟩ := hdone fuel (le_trans (le_max_left _ _) hle) journal
    obtain ⟨journal₂, hsecond⟩ := hdone' fuel (le_trans (le_max_right _ _) hle) journal₁
    refine ⟨journal₂, ?_⟩
    rw [List.append_assoc, perform_emitted hemits, bind_eq, hfirst]
    dsimp only
    rw [perform_emitted hemits', bind_eq, hsecond]
    dsimp only
    rw [perform_operator, List.append_nil, List.reverse_append]
    simp only [operator, pure_bind, perform_nil]
    rfl
  · intro slot' hslot
    rcases List.mem_append.1 hslot with hslot | hslot
    · exact isSome_value? h'.keeps (h.read slot' hslot)
    · exact h'.read slot' hslot

/-- A run of the program reads the entries when it is done. -/
theorem Performs.exists_run (h : Performs code slots env env') :
    ∃ values : List Value, values.map some = slots.map (Slot.value? env') ∧
      ∃ enough, ∀ fuel, enough ≤ fuel → ∃ journal,
        run fuel 0 code env [] = some (⟨values, none⟩, env', journal) := by
  obtain ⟨enough, hdone⟩ := h.done
  have hrange : slots.map (Slot.value? env') ∈ Set.range (List.map some) := by
    rw [Set.range_list_map]
    exact List.forall_mem_map.2 fun slot hslot => ⟨_, Option.some_get (h.read slot hslot)⟩
  obtain ⟨values, hvalues⟩ := hrange
  refine ⟨values, hvalues, enough + 1, fun fuel hle => ?_⟩
  cases fuel with
  | zero => exact absurd hle (Nat.not_succ_le_zero enough)
  | succ fuel =>
    obtain ⟨journal, hperform⟩ := hdone fuel (Nat.le_of_succ_le_succ hle) []
    obtain ⟨journal', hcollect⟩ :=
      @collect_of_value? slots values ⟨env', journal, FirstError.none⟩ hvalues.symm
    refine ⟨journal', ?_⟩
    rw [run, runWith]
    simp only [bind_eq, hperform, List.reverse_reverse, hcollect]
    rfl

/-- The entry is that of the tree, as only a variable is left to be read. -/
theorem eq_entryOf (hemits : Emits registry tree code) (hwidth : tree.width = 1)
    {runner : Runner} {depth : Nat} {s t : State} {v : Value}
    (hdone : perform runner depth code [] s = .done [slot] t)
    (hvalue : slot.value? t.env = some v) : slot = entryOf tree v := by
  unfold entryOf
  rcases variable?_or_ends hemits hwidth with ⟨name, hname, rfl⟩ | ⟨hname, hends⟩
  · rw [perform_name, perform_nil] at hdone
    cases hdone
    rw [hname]
  · obtain ⟨_, _, hshape, heq⟩ := hends hdone
    obtain ⟨rfl, -⟩ := List.cons.inj heq
    rw [hname]
    cases slot with
    | value w =>
      cases hvalue
      rfl
    | failed => cases hvalue
    | name | block | openCall => cases hshape

/-- The program of an element that gives a value leaves an entry for it. -/
theorem performs_of_run (hemits : Emits registry tree code) (hwidth : tree.width = 1)
    {fuel : Nat} {journal : List Event} {values : List Value} {v : Value}
    (hrun : run fuel 0 code env [] = some (⟨values, none⟩, env', journal))
    (hlast : values.getLast? = some v) :
    Performs code [entryOf tree v] env env' := by
  cases fuel with
  | zero => cases hrun
  | succ fuel =>
    obtain ⟨stack, s, s', hperform, hcollect, hfailure, rfl⟩ := exists_collect_of_runWith hrun
    have hlength := (ends_length hemits hperform).trans hwidth
    obtain ⟨slot, rfl⟩ := List.length_eq_one_iff.1 hlength
    obtain ⟨hvalues, hheld⟩ := length_of_collect hcollect hfailure
    obtain ⟨w, rfl⟩ := List.length_eq_one_iff.1 hvalues
    obtain rfl : w = v := by simpa using hlast
    obtain ⟨hvalue, henv⟩ := value?_of_resolve (resolve_of_collect hcollect)
    obtain rfl := eq_entryOf hemits hwidth hperform hvalue
    obtain ⟨after, journal', ⟨held⟩⟩ := s
    cases hheld
    cases henv
    refine performs_of_perform hperform fun slot hslot => ?_
    rw [List.mem_singleton.1 hslot, hvalue]
    rfl

/-- A tree in which no brackets directly hold a comma list is as wide as its own list is long. -/
theorem width_of_isPlain (hemits : Emits registry tree code) (hplain : tree.isPlain) :
    tree.width = tree.elements.length := by
  obtain ⟨stack, s, hdone, hlength⟩ := (pushes_of_emits hemits hplain).leaves.exists_done
  rw [← hlength, ends_length hemits hdone]

end Machine

end Reckoner
