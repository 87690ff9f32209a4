import Reckoner.Proofs.Scope.Frames

/-!
Variables that have values. What reads as absent is a variable that was given such a value, or one
whose cell the host does not share. Each operation that is given a value keeps the values there are.
-/

namespace Reckoner

structure Cell.GivesValues (cell : Cell) : Prop where
  now : cell.value ≠ .null
  later : ∀ content written, written ≠ .null → cell.get (cell.set content written) ≠ .null

theorem Cell.GivesValues.write {cell : Cell} (h : cell.GivesValues) {value : Value}
    (hvalue : value ≠ .null) : (cell.write value).GivesValues :=
  ⟨h.later cell.content value hvalue, h.later⟩

namespace Scope

structure HasValues (s : Scope) : Prop where
  globals : ∀ v ∈ s.globals, s.read v ≠ .null
  frames : ∀ frame ∈ s.frames, ∀ v ∈ frame, s.read v ≠ .null
  cells : ∀ cell ∈ s.cells, cell.GivesValues

variable {s t : Scope} {name : String} {value : Value} {v : Variable}

theorem hasValues_empty : empty.HasValues := ⟨nofun, nofun, nofun⟩

/-- Whatever a name means has a value. -/
theorem HasValues.get?_ne_null (h : s.HasValues) (name : String) : s.get? name ≠ some .null := by
  intro hget
  obtain ⟨v, hfind, hread⟩ := Option.map_eq_some_iff.1 hget
  rcases Option.or_eq_some_iff.1 hfind with hframe | ⟨-, hglobal⟩
  · obtain ⟨frame, hframe, hv⟩ := List.exists_of_findSome?_eq_some hframe
    exact h.frames frame hframe v (mem_of_binding? hv) hread
  · exact h.globals v (mem_of_binding? hglobal) hread

/-- A variable that shares a cell has a value while the cell is there and has one. -/
theorem read_shared_ne_null_iff {id : CellId} :
    s.read ⟨name, .shared id⟩ ≠ .null ↔ ∃ cell, s.cell? id = some cell ∧ cell.value ≠ .null := by
  change ((s.cell? id).map Cell.value).getD .null ≠ .null ↔ _
  cases s.cell? id with
  | none => simp
  | some cell => simp

/-- Variables that share cells keep having values as long as the cells do. -/
theorem read_ne_null_of_cells
    (hcells : ∀ id cell, s.cell? id = some cell → cell.value ≠ .null →
      ∃ cell', t.cell? id = some cell' ∧ cell'.value ≠ .null)
    (hread : s.read v ≠ .null) : t.read v ≠ .null := by
  obtain ⟨name, storage⟩ := v
  cases storage with
  | own value => exact hread
  | shared id =>
    obtain ⟨cell, hcell, hvalue⟩ := read_shared_ne_null_iff.1 hread
    exact read_shared_ne_null_iff.2 (hcells id cell hcell hvalue)

/-- A cell is written, by a variable or by the host. -/
theorem HasValues.modify (h : s.HasValues) (id : CellId) {change : Cell → Cell}
    (hchange : ∀ cell, s.cell? id = some cell → (change cell).GivesValues) :
    HasValues { s with cells := s.cells.modify id.number change } := by
  have hread {v : Variable} (hv : s.read v ≠ .null) :
      read { s with cells := s.cells.modify id.number change } v ≠ .null := by
    refine read_ne_null_of_cells (fun id' cell hcell hvalue => ?_) hv
    rw [cell?] at hcell
    rw [cell?, List.getElem?_modify, hcell]
    refine ⟨_, rfl, ?_⟩
    split
    · next heq =>
      rw [← heq] at hcell
      exact (hchange cell hcell).now
    · exact hvalue
  refine ⟨fun v hv => hread (h.globals v hv),
    fun frame hframe v hv => hread (h.frames frame hframe v hv), fun cell hcell => ?_⟩
  obtain ⟨i, hi, rfl⟩ := List.mem_iff_getElem.1 hcell
  rw [List.length_modify] at hi
  rw [List.getElem_modify]
  split
  · next heq =>
    subst heq
    exact hchange _ (List.getElem?_eq_getElem hi)
  · exact h.cells _ (List.getElem_mem _)

theorem HasValues.writeCell (h : s.HasValues) (id : CellId) (hvalue : value ≠ .null) :
    (s.writeCell id value).HasValues :=
  h.modify id fun _ hcell => (h.cells _ (List.mem_of_getElem? hcell)).write hvalue

theorem HasValues.setCell (h : s.HasValues) (id : CellId)
    (hvalue : ∀ cell, s.cell? id = some cell → cell.get value ≠ .null) :
    (s.setCell id value).HasValues :=
  h.modify id fun cell hcell =>
    ⟨hvalue cell hcell, (h.cells _ (List.mem_of_getElem? hcell)).later⟩

theorem HasValues.addCell (h : s.HasValues) {cell : Cell} (hcell : cell.GivesValues) :
    (s.addCell cell).2.HasValues := by
  have hread {v : Variable} (hv : s.read v ≠ .null) : (s.addCell cell).2.read v ≠ .null := by
    refine read_ne_null_of_cells (fun id cell hcell hpresent => ⟨cell, ?_, hpresent⟩) hv
    exact (List.getElem?_append_left (List.getElem?_eq_some_iff.1 hcell).1).trans hcell
  refine ⟨fun v hv => hread (h.globals v hv),
    fun frame hframe v hv => hread (h.frames frame hframe v hv), fun other hother => ?_⟩
  rcases List.mem_append.1 hother with hother | hother
  · exact h.cells other hother
  · rw [List.mem_singleton.1 hother]
    exact hcell

theorem HasValues.put (h : s.HasValues) (name : String) (hvalue : value ≠ .null) :
    (s.put name value).HasValues := by
  refine ⟨?_, h.frames, h.cells⟩
  simp only [Scope.put]
  split
  · exact forall_overwrite (P := fun v => s.read v ≠ .null) hvalue h.globals
  · intro v hv
    rcases List.mem_append.1 hv with hv | hv
    · exact h.globals v hv
    · rw [List.mem_singleton.1 hv]
      exact hvalue

/-- An assignment of a value. -/
theorem HasValues.set (h : s.HasValues) (hvalue : value ≠ .null) (hset : s.set name value = .ok t) :
    t.HasValues := by
  rcases set_cases hset with ⟨_, id, -, rfl⟩ | ⟨-, rfl⟩ | ⟨-, rfl⟩
  · exact h.writeCell id hvalue
  · exact ⟨h.globals, forall_overwriteFrames (P := fun v => s.read v ≠ .null) hvalue h.frames,
      h.cells⟩
  · exact h.put name hvalue

theorem HasValues.create (h : s.HasValues) (hvalue : value ≠ .null)
    (hcreate : s.create name value = .ok t) : t.HasValues := by
  unfold Scope.create at hcreate
  split at hcreate
  · next id _ =>
    cases hcreate
    exact h.writeCell id hvalue
  · cases hcreate
    exact ⟨forall_overwrite (P := fun v => s.read v ≠ .null) hvalue h.globals, h.frames, h.cells⟩
  · next hnone =>
    rw [addGlobal] at hcreate
    cases hcheck : Name.check name with
    | error e =>
      rw [hcheck] at hcreate
      cases hcreate
    | ok checked =>
      rw [hcheck, eq_of_check hcheck] at hcreate
      cases hcreate
      have hput := h.put name hvalue
      rwa [Scope.put, if_neg (by rw [hnone]; simp)] at hput

theorem HasValues.withoutGlobal (h : s.HasValues) (name : String) :
    (s.withoutGlobal name).HasValues :=
  ⟨fun v hv => h.globals v (List.mem_of_mem_filter hv), h.frames, h.cells⟩

/-- A variable for a cell that the host shares. -/
theorem HasValues.createShared (h : s.HasValues) {id : CellId} (hid : (s.cell? id).isSome)
    (hcreate : s.createShared name id = .ok t) : t.HasValues := by
  unfold Scope.createShared at hcreate
  cases hcheck : Name.check name with
  | error e =>
    rw [hcheck] at hcreate
    cases hcreate
  | ok checked =>
    rw [hcheck] at hcreate
    cases hcreate
    refine ⟨fun v hv => ?_, h.frames, h.cells⟩
    rcases List.mem_append.1 hv with hv | hv
    · exact (h.withoutGlobal checked).globals v hv
    · rw [List.mem_singleton.1 hv]
      obtain ⟨cell, hcell⟩ := Option.isSome_iff_exists.1 hid
      exact read_shared_ne_null_iff.2 ⟨cell, hcell, (h.cells cell (List.mem_of_getElem? hcell)).now⟩

/-- A call binds its parameters to values. -/
theorem HasValues.push (h : s.HasValues) {bindings : List (String × Value)}
    (hbindings : ∀ binding ∈ bindings, binding.2 ≠ .null) : (s.push bindings).HasValues := by
  refine ⟨h.globals, List.forall_mem_cons.2 ⟨fun v hv => ?_, h.frames⟩, h.cells⟩
  obtain ⟨binding, hbinding, rfl⟩ := List.mem_map.1 hv
  exact hbindings binding hbinding

theorem HasValues.pop (h : s.HasValues) : s.pop.HasValues :=
  ⟨h.globals, fun frame hframe => h.frames frame (List.mem_of_mem_drop hframe), h.cells⟩

end Scope

end Reckoner
