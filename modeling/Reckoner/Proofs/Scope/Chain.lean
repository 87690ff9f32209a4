import Mathlib.Logic.Function.Basic
import Reckoner.Proofs.Scope.Frames

/-!
A scope as a chain of maps. Frames and globals are lists of variables, some of which share a cell
with the host; what can be told by names is a map for each frame, a map of the globals, and the
order in which these were created. Every operation of a scope is an operation of its chain.
-/

namespace Reckoner

/-- Maps from names to values: those of the frames, innermost first, and that of the globals, which
are in an order. -/
@[ext]
structure Chain where
  frames : List (String → Option Value)
  globals : String → Option Value
  order : List String

inductive Scope.Operation where
  | set (name : String) (value : Value)
  | create (name : String) (value : Value)
  | share (name : String) (cell : CellId)
  | remove (name : String)
  | push (bindings : List (String × Value))
  | pop

def Scope.Operation.cell? : Scope.Operation → Option CellId
  | share _ cell => some cell
  | _ => none

def Cell.IsFaithful (cell : Cell) : Prop :=
  ∀ content written, cell.get (cell.set content written) = written

def settled {α : Type} (before : α) : Except Error α → α
  | .ok state => state
  | .error _ => before

theorem settled_map {α β : Type} (f : α → β) (before : α) (result : Except Error α) :
    settled (f before) (result.map f) = f (settled before result) := by
  cases result <;> rfl

namespace Chain

open Scope (Operation)

def empty : Chain := ⟨[], fun _ => none, []⟩

def get? (c : Chain) (name : String) : Option Value :=
  (c.frames.findSome? fun frame => frame name).or (c.globals name)

def rebind (name : String) (value : Value) :
    List (String → Option Value) → List (String → Option Value)
  | [] => []
  | frame :: outer =>
    if (frame name).isSome then Function.update frame name (some value) :: outer
    else frame :: rebind name value outer

def create (c : Chain) (name : String) (value : Value) : Except Error Chain :=
  let globals := Function.update c.globals name (some value)
  if (c.globals name).isSome then .ok { c with globals }
  else (Name.check name).map fun _ => { c with globals, order := c.order ++ [name] }

def set (c : Chain) (name : String) (value : Value) : Except Error Chain :=
  if (c.frames.findSome? fun frame => frame name).isSome then
    .ok { c with frames := rebind name value c.frames }
  else c.create name value

def remove (c : Chain) (name : String) : Chain :=
  { c with globals := Function.update c.globals name none, order := c.order.filter (· != name) }

def share (c : Chain) (name : String) (value : Value) : Except Error Chain :=
  (Name.check name).map fun _ =>
    { c with
      globals := Function.update c.globals name (some value)
      order := (c.remove name).order ++ [name] }

def push (c : Chain) (bindings : List (String × Value)) : Chain :=
  { c with frames := (fun name => bindings.lookup name) :: c.frames }

def pop (c : Chain) : Chain := { c with frames := c.frames.drop 1 }

def perform (held : CellId → Value) (c : Chain) : Operation → Except Error Chain
  | .set name value => c.set name value
  | .create name value => c.create name value
  | .share name cell => c.share name (held cell)
  | .remove name => .ok (c.remove name)
  | .push bindings => .ok (c.push bindings)
  | .pop => .ok c.pop

def run (held : CellId → Value) (c : Chain) (ops : List Operation) : Chain :=
  ops.foldl (fun c op => settled c (c.perform held op)) c

theorem findSome?_rebind (name other : String) (value : Value)
    (frames : List (String → Option Value)) :
    (rebind name value frames).findSome? (fun frame => frame other) =
      if other = name then (frames.findSome? fun frame => frame name).map fun _ => value
      else frames.findSome? fun frame => frame other := by
  induction frames with
  | nil => simp [rebind]
  | cons frame outer ih =>
    rw [rebind]
    by_cases hbound : (frame name).isSome
    · obtain ⟨old, hold⟩ := Option.isSome_iff_exists.1 hbound
      rw [if_pos hbound]
      by_cases hother : other = name
      · simp [hother, hold]
      · simp [hother, List.findSome?_cons]
    · rw [if_neg hbound, List.findSome?_cons, ih]
      rw [Option.not_isSome_iff_eq_none] at hbound
      by_cases hother : other = name
      · simp [hother, hbound]
      · simp [hother, List.findSome?_cons]

theorem get?_create {c d : Chain} {name : String} {value : Value}
    (hframes : (c.frames.findSome? fun frame => frame name) = none)
    (h : c.create name value = .ok d) (other : String) :
    d.get? other = if other = name then some value else c.get? other := by
  have hd : d.frames = c.frames ∧ d.globals = Function.update c.globals name (some value) := by
    simp only [create] at h
    split at h
    · cases h
      exact ⟨rfl, rfl⟩
    · cases hcheck : Name.check name with
      | error e =>
        rw [hcheck] at h
        cases h
      | ok checked =>
        rw [hcheck] at h
        cases h
        exact ⟨rfl, rfl⟩
  rw [get?, get?, hd.1, hd.2, Function.update_apply]
  by_cases hother : other = name
  · rw [if_pos hother, if_pos hother, hother, hframes, Option.none_or]
  · rw [if_neg hother, if_neg hother]

/-- An assignment gives a name the value and leaves all other names alone. -/
theorem get?_set {c d : Chain} {name : String} {value : Value} (h : c.set name value = .ok d)
    (other : String) : d.get? other = if other = name then some value else c.get? other := by
  rw [set] at h
  split at h
  · next hbound =>
    obtain ⟨old, hold⟩ := Option.isSome_iff_exists.1 hbound
    cases h
    rw [get?, get?, findSome?_rebind]
    by_cases hother : other = name
    · rw [if_pos hother, if_pos hother, hold]
      rfl
    · rw [if_neg hother, if_neg hother]
  · next hbound => exact get?_create (Option.not_isSome_iff_eq_none.1 hbound) h other

end Chain

namespace Scope

def perform (s : Scope) : Operation → Except Error Scope
  | .set name value => s.set name value
  | .create name value => s.create name value
  | .share name cell => s.createShared name cell
  | .remove name => .ok (s.remove name).2
  | .push bindings => .ok (s.push bindings)
  | .pop => .ok s.pop

def run (s : Scope) (ops : List Operation) : Scope :=
  ops.foldl (fun s op => settled s (s.perform op)) s

def held (s : Scope) (id : CellId) : Value := ((s.cell? id).map Cell.value).getD .null

def valueIn (s : Scope) (vars : List Variable) (name : String) : Option Value :=
  (binding? name vars).map s.read

def chain (s : Scope) : Chain := ⟨s.frames.map s.valueIn, s.valueIn s.globals, s.names⟩

/-- Each global has a valid name and a cell of its own, if it shares one, and parameters share
none. Cells give back what is written to them. -/
structure IsOrderly (s : Scope) : Prop where
  nodup : s.names.Nodup
  valid : ∀ name ∈ s.names, Name.check name = .ok name
  frames : ∀ frame ∈ s.frames, ∀ v ∈ frame, v.IsOwned
  cells : ∀ v ∈ s.globals, ∀ id, v.storage = .shared id → (s.cell? id).isSome
  distinct : ∀ v ∈ s.globals, ∀ w ∈ s.globals, ∀ id,
    v.storage = .shared id → w.storage = .shared id → v = w
  faithful : ∀ cell ∈ s.cells, cell.IsFaithful

structure IsFree (s : Scope) (id : CellId) : Prop where
  isSome : (s.cell? id).isSome
  unshared : ∀ v ∈ s.globals, v.storage ≠ .shared id

variable {s t : Scope} {name other : String} {value : Value} {vars : List Variable} {id : CellId}

/-! What variables hold. -/

theorem read_shared (s : Scope) (name : String) (id : CellId) :
    s.read ⟨name, .shared id⟩ = s.held id := rfl

theorem held_writeCell (hfaithful : ∀ cell ∈ s.cells, cell.IsFaithful)
    (hcell : (s.cell? id).isSome) (value : Value) (other : CellId) :
    (s.writeCell id value).held other = if other = id then value else s.held other := by
  by_cases h : other = id
  · obtain ⟨cell, hcell⟩ := Option.isSome_iff_exists.1 hcell
    rw [cell?] at hcell
    rw [if_pos h, h, held, cell?, writeCell, List.getElem?_modify_eq, hcell]
    exact hfaithful cell (List.mem_of_getElem? hcell) cell.content value
  · have hnumber : id.number ≠ other.number := fun heq => h (by rw [CellId.mk.injEq, heq])
    rw [if_neg h, held, cell?, writeCell, List.getElem?_modify]
    simp [hnumber, held, cell?]

theorem read_of_isOwned {v : Variable} (h : v.IsOwned) (s t : Scope) : t.read v = s.read v := by
  obtain ⟨value, hvalue⟩ := h
  rw [read, read, hvalue]

theorem valueIn_congr (h : ∀ v ∈ vars, t.read v = s.read v) : t.valueIn vars = s.valueIn vars := by
  funext name
  exact Option.map_congr fun v hv => h v (mem_of_binding? hv)

theorem isSome_valueIn (s : Scope) (vars : List Variable) (name : String) :
    (s.valueIn vars name).isSome = (binding? name vars).isSome := Option.isSome_map

theorem findSome?_valueIn (s : Scope) (frames : List (List Variable)) (name : String) :
    (frames.map s.valueIn).findSome? (fun frame => frame name) =
      (frames.findSome? (binding? name)).map s.read := by
  rw [List.findSome?_map, List.map_findSome?]
  rfl

theorem get?_chain (s : Scope) (name : String) : s.chain.get? name = s.get? name := by
  rw [Chain.get?, chain, findSome?_valueIn, get?, find?, Option.map_or]
  rfl

/-! What the operations do to the maps. -/

theorem valueIn_overwrite (s : Scope) (value : Value) (h : (binding? name vars).isSome) :
    s.valueIn (overwrite name value vars) =
      Function.update (s.valueIn vars) name (some value) := by
  funext other
  obtain ⟨v, hv⟩ := Option.isSome_iff_exists.1 h
  rw [valueIn, binding?_overwrite, Function.update_apply, hv]
  by_cases hother : other = name
  · rw [if_pos hother, if_pos hother]
    rfl
  · rw [if_neg hother, if_neg hother]
    rfl

theorem map_valueIn_overwriteFrames (s : Scope) (name : String) (value : Value)
    (frames : List (List Variable)) :
    (overwriteFrames name value frames).map s.valueIn =
      Chain.rebind name value (frames.map s.valueIn) := by
  induction frames with
  | nil => rfl
  | cons frame outer ih =>
    rw [overwriteFrames, List.map_cons, Chain.rebind, isSome_valueIn]
    by_cases hbound : (binding? name frame).isSome
    · rw [if_pos hbound, if_pos hbound, List.map_cons, valueIn_overwrite s value hbound]
    · rw [if_neg hbound, if_neg hbound, List.map_cons, ih]

theorem valueIn_append_own (s : Scope) (h : binding? name vars = none) (value : Value) :
    s.valueIn (vars ++ [⟨name, .own value⟩]) =
      Function.update (s.valueIn vars) name (some value) := by
  funext other
  rw [valueIn, binding?_append, binding?_cons, Function.update_apply]
  by_cases hother : other = name
  · rw [if_pos hother, hother, h, if_pos rfl]
    rfl
  · rw [if_neg hother, if_neg (Ne.symm hother)]
    simp [binding?, valueIn]

/-- A cell is one variable's alone. -/
theorem valueIn_writeCell (h : s.IsOrderly) {found : String}
    (hbound : binding? name s.globals = some ⟨found, .shared id⟩) (value : Value) :
    (s.writeCell id value).valueIn s.globals =
      Function.update (s.valueIn s.globals) name (some value) := by
  have hmem := mem_of_binding? hbound
  have hcell := h.cells _ hmem id rfl
  have hfound : found = name := by
    have hname := List.find?_some hbound
    simpa using hname
  funext other
  rw [Function.update_apply]
  by_cases hother : other = name
  · rw [if_pos hother, hother, valueIn, hbound, Option.map_some, read_shared,
      held_writeCell h.faithful hcell, if_pos rfl]
  · rw [if_neg hother]
    refine Option.map_congr fun v hv => ?_
    obtain ⟨vname, storage⟩ := v
    cases storage with
    | own value => rfl
    | shared id' =>
      rw [read_shared, read_shared, held_writeCell h.faithful hcell, if_neg]
      rintro rfl
      have hsame := h.distinct _ (mem_of_binding? hv) _ hmem id' rfl rfl
      have hname : vname = other := by simpa using List.find?_some hv
      exact hother (hname.symm.trans ((congrArg Variable.name hsame).trans hfound))

theorem map_valueIn_frames (h : s.IsOrderly) (t : Scope) :
    s.frames.map t.valueIn = s.frames.map s.valueIn :=
  List.map_congr_left fun frame hframe =>
    valueIn_congr fun v hv => read_of_isOwned (h.frames frame hframe v hv) s t

theorem chain_create (h : s.IsOrderly) (name : String) (value : Value) :
    (s.create name value).map chain = s.chain.create name value := by
  rw [create, Chain.create, chain, isSome_valueIn]
  split
  · next found id hbound =>
    rw [if_pos (by rw [hbound]; rfl)]
    exact congrArg Except.ok
      (Chain.ext (map_valueIn_frames h _) (valueIn_writeCell h hbound value) rfl)
  · next hbound =>
    rw [if_pos (by rw [hbound]; rfl)]
    have hsome : (binding? name s.globals).isSome := by rw [hbound]; rfl
    exact congrArg Except.ok
      (Chain.ext rfl (valueIn_overwrite s value hsome) (names_overwrite name value s.globals))
  · next hnone =>
    rw [if_neg (by rw [hnone]; simp), addGlobal]
    cases hcheck : Name.check name with
    | error e => rfl
    | ok checked =>
      rw [eq_of_check hcheck]
      exact congrArg Except.ok
        (Chain.ext rfl (valueIn_append_own s hnone value) List.map_append)

/-- Frames aside, an assignment creates or updates a global. -/
theorem set_eq (h : s.IsOrderly) (name : String) (value : Value) :
    s.set name value = if (s.frames.findSome? (binding? name)).isSome then
      .ok { s with frames := overwriteFrames name value s.frames } else s.create name value := by
  rw [set, create, find?]
  cases hframe : s.frames.findSome? (binding? name) with
  | none => rfl
  | some v =>
    obtain ⟨frame, hmem, hv⟩ := List.exists_of_findSome?_eq_some hframe
    obtain ⟨found, storage⟩ := v
    obtain ⟨old, rfl⟩ := h.frames frame hmem _ (mem_of_binding? hv)
    rfl

theorem chain_set (h : s.IsOrderly) (name : String) (value : Value) :
    (s.set name value).map chain = s.chain.set name value := by
  rw [set_eq h, Chain.set, ← chain_create h]
  have hframes : s.chain.frames.findSome? (fun frame => frame name) =
      (s.frames.findSome? (binding? name)).map s.read := findSome?_valueIn s s.frames name
  rw [hframes, Option.isSome_map]
  split
  · exact congrArg Except.ok (Chain.ext (map_valueIn_overwriteFrames s name value s.frames) rfl rfl)
  · rfl

theorem valueIn_withoutGlobal (s : Scope) (name : String) :
    s.valueIn (s.withoutGlobal name).globals =
      Function.update (s.valueIn s.globals) name none := by
  funext other
  rw [valueIn, binding?_withoutGlobal, Function.update_apply]
  split <;> rfl

theorem names_withoutGlobal (s : Scope) (name : String) :
    (s.withoutGlobal name).names = s.names.filter (· != name) := by
  rw [withoutGlobal, names, names, List.filter_map]
  rfl

theorem chain_remove (s : Scope) (name : String) :
    (s.remove name).2.chain = s.chain.remove name :=
  Chain.ext rfl (valueIn_withoutGlobal s name) (names_withoutGlobal s name)

theorem chain_createShared (s : Scope) (name : String) (id : CellId) :
    (s.createShared name id).map chain = s.chain.share name (s.held id) := by
  rw [createShared, Chain.share]
  cases hcheck : Name.check name with
  | error e => rfl
  | ok checked =>
    rw [eq_of_check hcheck]
    have hnames : ((s.withoutGlobal name).globals ++ [Variable.mk name (.shared id)]).map
        Variable.name = s.names.filter (· != name) ++ [name] :=
      List.map_append.trans (congrArg (· ++ [name]) (names_withoutGlobal s name))
    refine congrArg Except.ok (Chain.ext rfl ?_ hnames)
    funext other
    change (binding? other ((s.withoutGlobal name).globals ++ _)).map s.read =
      Function.update (s.valueIn s.globals) name (some (s.held id)) other
    rw [binding?_append, binding?_withoutGlobal, binding?_cons, Function.update_apply]
    by_cases hother : other = name
    · rw [if_pos hother, if_pos hother, if_pos hother.symm]
      rfl
    · rw [if_neg hother, if_neg hother, if_neg (Ne.symm hother)]
      simp [binding?, valueIn]

theorem chain_push (s : Scope) (bindings : List (String × Value)) :
    (s.push bindings).chain = s.chain.push bindings := by
  refine Chain.ext (congrArg (· :: s.frames.map s.valueIn) ?_) rfl rfl
  funext name
  change (binding? name _).map s.read = _
  rw [binding?_map, Option.map_map]
  exact Option.map_id' ..

theorem chain_pop (s : Scope) : s.pop.chain = s.chain.pop :=
  Chain.ext List.map_drop rfl rfl

/-- What an operation does to a scope it does to the chain of the scope. -/
theorem chain_perform (h : s.IsOrderly) {held : CellId → Value} (op : Operation)
    (hheld : ∀ id, op.cell? = some id → s.held id = held id) :
    (s.perform op).map chain = s.chain.perform held op := by
  cases op with
  | set name value => exact chain_set h name value
  | create name value => exact chain_create h name value
  | share name cell =>
    rw [perform, chain_createShared, hheld cell rfl]
    rfl
  | remove name => exact congrArg Except.ok (chain_remove s name)
  | push bindings => exact congrArg Except.ok (chain_push s bindings)
  | pop => exact congrArg Except.ok (chain_pop s)

/-! What stays true of the variables. -/

/-- What an operation can do. Its globals are old ones, ones with a value of their own, and the one
that now shares a cell; and cells that no variable shares are not written. -/
structure Follows (s : Scope) (op : Operation) (t : Scope) : Prop where
  globals : ∀ v ∈ t.globals,
    v ∈ s.globals ∨ v.IsOwned ∨ ∃ id, op = .share v.name id ∧ v.storage = .shared id
  frames : ∀ frame ∈ t.frames, ∀ v ∈ frame, v.IsOwned
  names : t.names.Sublist s.names ∨
    ∃ name, Name.check name = .ok name ∧ t.names = s.names.filter (· != name) ++ [name]
  isSome : ∀ id, (t.cell? id).isSome = (s.cell? id).isSome
  held : ∀ id, (∀ v ∈ s.globals, v.storage ≠ .shared id) → t.held id = s.held id
  faithful : (∀ cell ∈ s.cells, cell.IsFaithful) → ∀ cell ∈ t.cells, cell.IsFaithful

theorem faithful_writeCell (h : ∀ cell ∈ s.cells, cell.IsFaithful) (id : CellId) (value : Value) :
    ∀ cell ∈ (s.writeCell id value).cells, cell.IsFaithful := by
  intro cell hcell
  obtain ⟨i, hi, rfl⟩ := List.mem_iff_getElem.1 hcell
  have hi' : i < s.cells.length := by simpa [writeCell] using hi
  have hold := h _ (List.getElem_mem hi')
  simp only [writeCell, List.getElem_modify]
  split
  · exact hold
  · exact hold

theorem isSome_writeCell (s : Scope) (id : CellId) (value : Value) (other : CellId) :
    ((s.writeCell id value).cell? other).isSome = (s.cell? other).isSome := by
  rw [cell?, writeCell, List.getElem?_modify]
  exact Option.isSome_map

theorem mem_overwrite {v : Variable} (hv : v ∈ overwrite name value vars) :
    v ∈ vars ∨ v.IsOwned :=
  forall_overwrite (P := fun v => v ∈ vars ∨ v.IsOwned) (.inr ⟨value, rfl⟩) (fun _ => .inl) v hv

theorem filter_names_ne (h : name ∉ s.names) : s.names.filter (· != name) = s.names :=
  List.filter_eq_self.2 fun other hother => by
    have hne : other ≠ name := fun heq => h (heq ▸ hother)
    simpa using hne

theorem follows_create (h : s.IsOrderly) {op : Operation}
    (hcreate : s.create name value = .ok t) : s.Follows op t := by
  rw [create] at hcreate
  split at hcreate
  · next found id hbound =>
    cases hcreate
    refine ⟨fun v => .inl, h.frames, .inl (List.Sublist.refl _), isSome_writeCell s id value,
      fun other hother => ?_, fun hfaithful => faithful_writeCell hfaithful id value⟩
    have hmem := mem_of_binding? hbound
    rw [held_writeCell h.faithful (h.cells _ hmem id rfl), if_neg]
    rintro rfl
    exact hother _ hmem rfl
  · cases hcreate
    exact ⟨fun v hv => (mem_overwrite hv).imp_right .inl, h.frames,
      .inl (by rw [names, names, names_overwrite]), fun _ => rfl, fun _ _ => rfl, id⟩
  · next hnone =>
    rw [addGlobal] at hcreate
    cases hcheck : Name.check name with
    | error e =>
      rw [hcheck] at hcreate
      cases hcreate
    | ok checked =>
      rw [hcheck, eq_of_check hcheck] at hcreate
      rw [eq_of_check hcheck] at hcheck
      cases hcreate
      refine ⟨fun v hv => ?_, h.frames, .inr ⟨name, hcheck, ?_⟩, fun _ => rfl, fun _ _ => rfl, id⟩
      · rcases List.mem_append.1 hv with hv | hv
        · exact .inl hv
        · rw [List.mem_singleton.1 hv]
          exact .inr (.inl ⟨value, rfl⟩)
      · rw [filter_names_ne (binding?_eq_none.1 hnone)]
        exact List.map_append

theorem follows_perform (h : s.IsOrderly) {op : Operation} (hperform : s.perform op = .ok t) :
    s.Follows op t := by
  cases op with
  | set name value =>
    rw [perform, set_eq h] at hperform
    split at hperform
    · cases hperform
      exact ⟨fun v => .inl, forall_overwriteFrames ⟨value, rfl⟩ h.frames,
        .inl (List.Sublist.refl _),
        fun _ => rfl, fun _ _ => rfl, id⟩
    · exact follows_create h hperform
  | create name value => exact follows_create h hperform
  | share name cell =>
    rw [perform, createShared] at hperform
    cases hcheck : Name.check name with
    | error e =>
      rw [hcheck] at hperform
      cases hperform
    | ok checked =>
      rw [hcheck, eq_of_check hcheck] at hperform
      rw [eq_of_check hcheck] at hcheck
      cases hperform
      refine ⟨fun v hv => ?_, h.frames, .inr ⟨name, hcheck, ?_⟩, fun _ => rfl, fun _ _ => rfl, id⟩
      · rcases List.mem_append.1 hv with hv | hv
        · exact .inl (List.mem_of_mem_filter hv)
        · rw [List.mem_singleton.1 hv]
          exact .inr (.inr ⟨cell, rfl, rfl⟩)
      · exact List.map_append.trans (congrArg (· ++ [name]) (names_withoutGlobal s name))
  | remove name =>
    cases hperform
    refine ⟨fun v hv => .inl (List.mem_of_mem_filter hv), h.frames, .inl ?_, fun _ => rfl,
      fun _ _ => rfl, id⟩
    exact List.Sublist.map _ List.filter_sublist
  | push bindings =>
    cases hperform
    refine ⟨fun v => .inl, List.forall_mem_cons.2 ⟨fun v hv => ?_, h.frames⟩,
      .inl (List.Sublist.refl _), fun _ => rfl, fun _ _ => rfl, id⟩
    obtain ⟨⟨name, value⟩, -, rfl⟩ := List.mem_map.1 hv
    exact ⟨value, rfl⟩
  | pop =>
    cases hperform
    exact ⟨fun v => .inl, fun frame hframe => h.frames frame (List.mem_of_mem_drop hframe),
      .inl (List.Sublist.refl _), fun _ => rfl, fun _ _ => rfl, id⟩

theorem not_isOwned_shared {v : Variable} (hv : v.storage = .shared id) : ¬ v.IsOwned := by
  rintro ⟨value, hvalue⟩
  rw [hv] at hvalue
  cases hvalue

/-- A cell that is still free stays so, and nothing is written to it, until it is shared. -/
theorem IsFree.follows {op : Operation} (h : s.IsFree id) (hfollows : s.Follows op t)
    (hop : op.cell? ≠ some id) : t.IsFree id ∧ t.held id = s.held id := by
  refine ⟨⟨by rw [hfollows.isSome]; exact h.isSome, fun v hv hshared => ?_⟩,
    hfollows.held id h.unshared⟩
  rcases hfollows.globals v hv with hold | hown | ⟨id', rfl, hnew⟩
  · exact h.unshared v hold hshared
  · exact not_isOwned_shared hshared hown
  · rw [hnew] at hshared
    cases hshared
    exact hop rfl

/-- A variable that shares a cell did so before, unless the operation is the one that shares it. -/
theorem Follows.shared {op : Operation} (h : s.Follows op t) {v : Variable} (hv : v ∈ t.globals)
    (hshared : v.storage = .shared id) : v ∈ s.globals ∨ op = .share v.name id := by
  rcases h.globals v hv with hold | hown | ⟨id', rfl, hnew⟩
  · exact .inl hold
  · exact absurd hown (not_isOwned_shared hshared)
  · rw [hnew] at hshared
    cases hshared
    exact .inr rfl

theorem IsOrderly.follows {op : Operation} (h : s.IsOrderly) (hfollows : s.Follows op t)
    (hfree : ∀ id, op.cell? = some id → s.IsFree id) : t.IsOrderly where
  nodup := by
    rcases hfollows.names with hsub | ⟨name, -, hnames⟩
    · exact hsub.nodup h.nodup
    · rw [hnames]
      refine List.nodup_append'.2 ⟨h.nodup.filter _, List.nodup_singleton name, ?_⟩
      simp
  valid := by
    rcases hfollows.names with hsub | ⟨name, hcheck, hnames⟩
    · exact fun name hname => h.valid name (hsub.subset hname)
    · rw [hnames]
      intro other hother
      rcases List.mem_append.1 hother with hother | hother
      · exact h.valid other (List.mem_of_mem_filter hother)
      · rw [List.mem_singleton.1 hother, hcheck]
  frames := hfollows.frames
  cells := by
    intro v hv id hshared
    rw [hfollows.isSome]
    rcases hfollows.shared hv hshared with hold | rfl
    · exact h.cells v hold id hshared
    · exact (hfree id rfl).isSome
  distinct := by
    intro v hv w hw id hshared hshared'
    rcases hfollows.shared hv hshared with hold | rfl
    · rcases hfollows.shared hw hshared' with hold' | rfl
      · exact h.distinct v hold w hold' id hshared hshared'
      · exact absurd hshared ((hfree id rfl).unshared v hold)
    · rcases hfollows.shared hw hshared' with hold' | hsame
      · exact absurd hshared' ((hfree id rfl).unshared w hold')
      · obtain ⟨vname, storage⟩ := v
        obtain ⟨wname, storage'⟩ := w
        cases hsame
        cases hshared
        cases hshared'
        rfl
  faithful := hfollows.faithful h.faithful

/-- Where the cells to come are free, a scope goes through operations as its chain does, and the
cells of later ones are still free behind these. -/
theorem run_chain {held : CellId → Value} (h : s.IsOrderly) (ops more : List Operation)
    (hdistinct : ((ops ++ more).filterMap Operation.cell?).Nodup)
    (hfree : ∀ id ∈ (ops ++ more).filterMap Operation.cell?, s.IsFree id ∧ s.held id = held id) :
    (s.run ops).IsOrderly ∧ (s.run ops).chain = s.chain.run held ops ∧
      ∀ id ∈ more.filterMap Operation.cell?,
        (s.run ops).IsFree id ∧ (s.run ops).held id = held id := by
  induction ops generalizing s with
  | nil => exact ⟨h, rfl, hfree⟩
  | cons op ops ih =>
    rw [List.cons_append] at hdistinct hfree
    have hop : ∀ id, op.cell? = some id → s.IsFree id ∧ s.held id = held id :=
      fun id hid => hfree id (List.mem_filterMap.2 ⟨op, List.mem_cons_self, hid⟩)
    have hlater : ∀ id ∈ (ops ++ more).filterMap Operation.cell?,
        op.cell? ≠ some id ∧ s.IsFree id ∧ s.held id = held id := by
      intro id hid
      rw [List.filterMap_cons] at hdistinct hfree
      cases hcell : op.cell? with
      | none =>
        rw [hcell] at hfree
        exact ⟨nofun, hfree id hid⟩
      | some cell =>
        rw [hcell] at hdistinct hfree
        refine ⟨?_, hfree id (List.mem_cons_of_mem _ hid)⟩
        rintro ⟨rfl⟩
        exact (List.nodup_cons.1 hdistinct).1 hid
    have hdistinct' : ((ops ++ more).filterMap Operation.cell?).Nodup :=
      hdistinct.sublist ((List.sublist_cons_self op _).filterMap _)
    have hchain : (settled s (s.perform op)).chain = settled s.chain (s.chain.perform held op) := by
      rw [← chain_perform h op fun id hid => (hop id hid).2, settled_map]
    rw [run, List.foldl_cons, Chain.run, List.foldl_cons, ← hchain]
    cases hperform : s.perform op with
    | error e => exact ih h hdistinct' fun id hid => (hlater id hid).2
    | ok t =>
      have hfollows := follows_perform h hperform
      refine ih (h.follows hfollows fun id hid => (hop id hid).1) hdistinct' fun id hid => ?_
      obtain ⟨hne, hstill, hheld⟩ := hlater id hid
      obtain ⟨hstill', hheld'⟩ := hstill.follows hfollows hne
      exact ⟨hstill', hheld'.trans hheld⟩

theorem isOrderly_cells {cells : List Cell} (h : ∀ cell ∈ cells, cell.IsFaithful) :
    IsOrderly { cells } :=
  ⟨List.nodup_nil, nofun, nofun, nofun, nofun, h⟩

theorem isValid_of_check (h : Name.check name = .ok name) :
    Name.isValid name = true ∧ Text.byteLength name.toList ≤ Name.maxBytes := by
  rw [Name.check] at h
  split at h
  · next hvalid =>
    rw [Name.fit] at h
    split at h
    · next hfit => exact ⟨hvalid, hfit⟩
    · cases h
  · cases h

theorem run_append_singleton (s : Scope) (ops : List Operation) (op : Operation) :
    s.run (ops ++ [op]) = settled (s.run ops) ((s.run ops).perform op) :=
  List.foldl_append

/-- Whatever is done to variables, with another cell for each one that shares one, all of which give
back what was written last: what a name means is what it means in the chain, and the globals are in
the order of the chain, under different and valid names. An assignment that succeeds gives its name
the value and leaves every other name alone. An operation that is refused is refused by the chain
with the same error, and changes nothing. -/
theorem run_refines {cells : List Cell} (hfaithful : ∀ cell ∈ cells, cell.IsFaithful)
    (ops : List Operation) (hdistinct : (ops.filterMap Operation.cell?).Nodup)
    (hcells : ∀ id ∈ ops.filterMap Operation.cell?, id.number < cells.length) :
    let start : Scope := { cells }
    let chainOf (ops : List Operation) : Chain := Chain.empty.run start.held ops
    (start.run ops).chain = chainOf ops ∧
      (∀ name, (start.run ops).get? name = (chainOf ops).get? name) ∧
      (start.run ops).names = (chainOf ops).order ∧
      (start.run ops).names.Nodup ∧
      (∀ name ∈ (start.run ops).names,
        Name.isValid name ∧ Text.byteLength name.toList ≤ Name.maxBytes) ∧
      ∀ before op after, ops = before ++ op :: after →
        match (start.run before).perform op with
        | .ok t =>
          start.run (before ++ [op]) = t ∧
            ∀ name value, op = .set name value → ∀ other, t.get? other =
              if other = name then some value else (start.run before).get? other
        | .error e =>
          start.run (before ++ [op]) = start.run before ∧
            (chainOf before).perform start.held op = .error e := by
  intro start chainOf
  have hfree : ∀ id ∈ ops.filterMap Operation.cell?,
      start.IsFree id ∧ start.held id = start.held id := fun id hid =>
    ⟨⟨by rw [cell?, List.getElem?_eq_getElem (hcells id hid)]; rfl, nofun⟩, rfl⟩
  have hstart : start.IsOrderly := isOrderly_cells hfaithful
  obtain ⟨horderly, hchain, -⟩ :=
    run_chain hstart ops [] (by rwa [List.append_nil]) (by rwa [List.append_nil])
  refine ⟨hchain, fun name => ?_, congrArg Chain.order hchain, horderly.nodup,
    fun name hname => isValid_of_check (horderly.valid name hname), ?_⟩
  · rw [← get?_chain, hchain]
    rfl
  rintro before op after rfl
  obtain ⟨hbefore, hchain', hlater⟩ := run_chain hstart before (op :: after) hdistinct hfree
  have hperform := chain_perform hbefore op fun id hid =>
    (hlater id (List.mem_filterMap.2 ⟨op, List.mem_cons_self, hid⟩)).2
  rw [run_append_singleton]
  cases hresult : (start.run before).perform op with
  | ok t =>
    refine ⟨rfl, ?_⟩
    rintro name value rfl other
    rw [hresult] at hperform
    rw [← get?_chain t, ← get?_chain]
    exact Chain.get?_set hperform.symm other
  | error e =>
    rw [hresult, hchain'] at hperform
    exact ⟨rfl, hperform.symm⟩

/-- A name that is a global, a parameter and a global again, with a cell of its own in the end. -/
theorem run_refines_of_shadowing :
    let cells : List Cell := [{ content := .integer 10 }, { content := .integer 20 }]
    let ops : List Operation :=
      [.create "x" (.integer 1), .share "c" ⟨0⟩, .push [("x", .integer 2)], .set "x" (.integer 3),
        .set "c" (.integer 4), .set "y" (.integer 5), .set "5" (.integer 6), .pop, .share "x" ⟨1⟩]
    (∀ cell ∈ cells, cell.IsFaithful) ∧ (ops.filterMap Operation.cell?).Nodup ∧
      (∀ id ∈ ops.filterMap Operation.cell?, id.number < cells.length) ∧
      (run { cells } ops).get? "x" = some (.integer 20) ∧
      (run { cells } ops).get? "c" = some (.integer 4) ∧
      (run { cells } ops).names = ["c", "y", "x"] := by
  intro cells ops
  have hfaithful : ∀ cell ∈ cells, cell.IsFaithful := by simp [cells, Cell.IsFaithful]
  have hdistinct : (ops.filterMap Operation.cell?).Nodup := by decide
  have hcells : ∀ id ∈ ops.filterMap Operation.cell?, id.number < cells.length := by decide
  obtain ⟨-, hget, hnames, -⟩ := run_refines hfaithful ops hdistinct hcells
  exact ⟨hfaithful, hdistinct, hcells, hget "x", hget "c", hnames⟩

end Scope

end Reckoner
