import Mathlib.Data.List.Forall2
import Reckoner.Proofs.Scope.Frames

/-!
Names that a call hides. As long as the frame of a call is in place, its parameters mean variables
in that frame or in later ones. Older variables of these names are neither written nor looked at,
and what they hold may be anything.
-/

namespace Reckoner

structure Variable.Masks (names : List String) (v w : Variable) : Prop where
  name : w.name = v.name
  same (h : v.name ∉ names) : w = v

namespace Scope

variable {names : List String} {name : String} {value : Value} {s t t' u u' : Scope}
  {upper lower frames frames' : List (List Variable)} {vars vars' : List Variable}

def BindsAll (names : List String) (frames : List (List Variable)) : Prop :=
  ∀ name ∈ names, (frames.findSome? (binding? name)).isSome

theorem BindsAll.of_names (h : BindsAll names frames)
    (hnames : frames'.map (·.map Variable.name) = frames.map (·.map Variable.name)) :
    BindsAll names frames' := by
  intro name hname
  rw [isSome_findSome?_iff, hnames, ← isSome_findSome?_iff]
  exact h name hname

theorem BindsAll.cons (h : BindsAll names frames) (frame : List Variable) :
    BindsAll names (frame :: frames) := by
  intro name hname
  rw [List.findSome?_cons]
  cases binding? name frame with
  | none => exact h name hname
  | some v => rfl

theorem bindsAll_bindings (bindings : List (String × Value)) :
    BindsAll (bindings.map Prod.fst)
      [bindings.map fun (name, value) => ⟨name, .own value⟩] := by
  intro name hname
  rw [isSome_findSome?_iff]
  refine ⟨_, List.mem_singleton.2 rfl, ?_⟩
  simpa using hname

theorem BindsAll.notMem (h : BindsAll names frames)
    (hnone : frames.findSome? (binding? name) = none) : name ∉ names := by
  intro hname
  have hsome := h name hname
  rw [hnone] at hsome
  cases hsome

/-- A name that upper frames bind is not overwritten below. -/
theorem overwriteFrames_append (name : String) (value : Value)
    (upper lower : List (List Variable)) :
    overwriteFrames name value (upper ++ lower) =
      if (upper.findSome? (binding? name)).isSome then overwriteFrames name value upper ++ lower
      else upper ++ overwriteFrames name value lower := by
  induction upper with
  | nil => rfl
  | cons frame upper ih =>
    rw [List.cons_append, overwriteFrames, overwriteFrames, List.findSome?_cons]
    cases hbound : binding? name frame with
    | some v => rfl
    | none =>
      simp only [Option.isSome_none, Bool.false_eq_true, if_false, ih]
      split <;> rfl

/-! One scope on another. -/

def bearing (names : List String) (vars : List Variable) : List Variable :=
  vars.filter fun v => v.name ∈ names

/-- Frames that are on those of `s` bind all the names, and the older variables of these names are
what they were. -/
def Covers (names : List String) (s t : Scope) : Prop :=
  ∃ upper lower, t.frames = upper ++ lower ∧ BindsAll names upper ∧
    lower.map (bearing names) = s.frames.map (bearing names) ∧
    bearing names t.globals = bearing names s.globals

theorem bearing_overwrite (h : name ∉ names) (value : Value) (vars : List Variable) :
    bearing names (overwrite name value vars) = bearing names vars := by
  induction vars with
  | nil => rfl
  | cons v vars ih =>
    rw [overwrite]
    split
    · next hv => simp [bearing, hv, h]
    · simp only [bearing, List.filter_cons] at ih ⊢
      rw [ih]

theorem bearing_overwriteFrames (h : name ∉ names) (value : Value)
    (frames : List (List Variable)) :
    (overwriteFrames name value frames).map (bearing names) = frames.map (bearing names) := by
  induction frames with
  | nil => rfl
  | cons frame outer ih =>
    rw [overwriteFrames]
    split
    · rw [List.map_cons, List.map_cons, bearing_overwrite h]
    · rw [List.map_cons, List.map_cons, ih]

theorem bearing_put (h : name ∉ names) (s : Scope) (value : Value) :
    bearing names (s.put name value).globals = bearing names s.globals := by
  rw [put]
  split
  · exact bearing_overwrite h value s.globals
  · simp [bearing, h]

/-- A call covers the names that it binds. -/
theorem covers_push (s : Scope) (bindings : List (String × Value)) :
    s.Covers (bindings.map Prod.fst) (s.push bindings) :=
  ⟨_, s.frames, rfl, bindsAll_bindings bindings, rfl, rfl⟩

theorem Covers.push (h : s.Covers names t) (bindings : List (String × Value)) :
    s.Covers names (t.push bindings) := by
  obtain ⟨upper, lower, hframes, hbinds, hlower, hglobals⟩ := h
  refine ⟨(bindings.map fun (name, value) => ⟨name, .own value⟩) :: upper, lower, ?_,
    hbinds.cons _, hlower, hglobals⟩
  rw [Scope.push, hframes]
  rfl

theorem Covers.set (h : s.Covers names t) (hset : t.set name value = .ok u) :
    s.Covers names u := by
  obtain ⟨upper, lower, hframes, hbinds, hlower, hglobals⟩ := h
  rcases set_cases hset with ⟨found, id, -, rfl⟩ | ⟨-, rfl⟩ | ⟨hnone, rfl⟩
  · exact ⟨upper, lower, hframes, hbinds, hlower, hglobals⟩
  · by_cases hbound : (upper.findSome? (binding? name)).isSome
    · refine ⟨overwriteFrames name value upper, lower, ?_, ?_, hlower, hglobals⟩
      · rw [hframes, overwriteFrames_append, if_pos hbound]
      · exact hbinds.of_names (names_overwriteFrames name value upper)
    · have hname := hbinds.notMem (Option.not_isSome_iff_eq_none.1 hbound)
      refine ⟨upper, overwriteFrames name value lower, ?_, hbinds, ?_, hglobals⟩
      · rw [hframes, overwriteFrames_append, if_neg hbound]
      · rw [bearing_overwriteFrames hname, hlower]
  · rw [hframes, List.findSome?_append, Option.or_eq_none_iff] at hnone
    refine ⟨upper, lower, hframes, hbinds, hlower, ?_⟩
    rw [bearing_put (hbinds.notMem hnone.1), hglobals]

/-- A frame that was put on top is there until it is taken away. -/
theorem exists_upper {frame : List Variable} {upper' lower' : List (List Variable)}
    (hlength : lower'.length = lower.length)
    (hnames : (upper' ++ lower').map (·.map Variable.name) =
      (frame :: (upper ++ lower)).map (·.map Variable.name)) :
    ∃ top rest, upper' = top :: rest ∧
      rest.map (·.map Variable.name) = upper.map (·.map Variable.name) := by
  rw [← List.cons_append, List.map_append, List.map_append] at hnames
  have hupper := (List.append_inj' hnames (by simp [hlength])).1
  obtain ⟨top, rest, rfl, -, hrest⟩ := List.map_eq_cons_iff.1 hupper
  exact ⟨top, rest, rfl, hrest⟩

theorem Covers.pop {bindings : List (String × Value)} (h : s.Covers names t)
    (hcontinues : (t.push bindings).Continues u) (hcovers : s.Covers names u) :
    s.Covers names u.pop := by
  obtain ⟨upper, lower, hframes, hbinds, hlower, -⟩ := h
  obtain ⟨upper', lower', hframes', -, hlower', hglobals'⟩ := hcovers
  have hlength : lower'.length = lower.length := by
    have heq := congrArg List.length (hlower'.trans hlower.symm)
    rwa [List.length_map, List.length_map] at heq
  have hnames := hcontinues.frames
  rw [hframes', Scope.push, hframes] at hnames
  obtain ⟨top, rest, rfl, hrest⟩ := exists_upper hlength hnames
  refine ⟨rest, lower', ?_, hbinds.of_names hrest, hlower', hglobals'⟩
  rw [Scope.pop, hframes']
  rfl

def IsAbove (count : Nat) (name : String) (t : Scope) : Prop :=
  ∃ upper lower v, t.frames = upper ++ lower ∧ lower.length = count ∧
    upper.findSome? (binding? name) = some v ∧ t.find? name = some v

/-- A covered name means a variable in a frame that was put on those of `s`. -/
theorem Covers.isAbove (h : s.Covers names t) (hname : name ∈ names) : t.IsAbove s.depth name := by
  obtain ⟨upper, lower, hframes, hbinds, hlower, -⟩ := h
  obtain ⟨v, hv⟩ := Option.isSome_iff_exists.1 (hbinds name hname)
  refine ⟨upper, lower, v, hframes, ?_, hv, ?_⟩
  · have heq := congrArg List.length hlower
    rwa [List.length_map, List.length_map] at heq
  · rw [Scope.find?, hframes, List.findSome?_append, hv]
    rfl

/-! Two scopes with the same on top. -/

structure Masks (names : List String) (s s' : Scope) : Prop where
  frames : List.Forall₂ (List.Forall₂ (Variable.Masks names)) s.frames s'.frames
  globals : List.Forall₂ (Variable.Masks names) s.globals s'.globals
  cells : s'.cells = s.cells

/-- Above as many frames there are the same ones, which bind all the names, and below these what
variables of the names hold may differ. -/
def Alike (names : List String) (count : Nat) (t t' : Scope) : Prop :=
  ∃ upper lower lower', t.frames = upper ++ lower ∧ t'.frames = upper ++ lower' ∧
    lower.length = count ∧ BindsAll names upper ∧
    List.Forall₂ (List.Forall₂ (Variable.Masks names)) lower lower' ∧
    List.Forall₂ (Variable.Masks names) t.globals t'.globals ∧ t'.cells = t.cells

section Masks

theorem names_masks (h : List.Forall₂ (Variable.Masks names) vars vars') :
    vars'.map Variable.name = vars.map Variable.name := by
  induction h with
  | nil => rfl
  | cons hv _ ih => rw [List.map_cons, List.map_cons, hv.name, ih]

theorem frameNames_masks (h : List.Forall₂ (List.Forall₂ (Variable.Masks names)) frames frames') :
    frames'.map (·.map Variable.name) = frames.map (·.map Variable.name) := by
  induction h with
  | nil => rfl
  | cons hframe _ ih => rw [List.map_cons, List.map_cons, names_masks hframe, ih]

theorem binding?_masks (h : List.Forall₂ (Variable.Masks names) vars vars') (hname : name ∉ names) :
    binding? name vars' = binding? name vars := by
  induction h with
  | nil => rfl
  | @cons v w _ _ hv _ ih =>
    rw [binding?_cons, binding?_cons, hv.name, ih]
    split
    · next heq => rw [hv.same (heq ▸ hname)]
    · rfl

theorem findSome?_masks (h : List.Forall₂ (List.Forall₂ (Variable.Masks names)) frames frames')
    (hname : name ∉ names) :
    frames'.findSome? (binding? name) = frames.findSome? (binding? name) := by
  induction h with
  | nil => rfl
  | cons hframe _ ih =>
    rw [List.findSome?_cons, List.findSome?_cons, binding?_masks hframe hname, ih]

theorem overwrite_masks (name : String) (value : Value)
    (h : List.Forall₂ (Variable.Masks names) vars vars') :
    List.Forall₂ (Variable.Masks names) (overwrite name value vars)
      (overwrite name value vars') := by
  induction h with
  | nil => exact .nil
  | cons hv hvars ih =>
    rw [overwrite, overwrite, hv.name]
    split
    · exact .cons ⟨rfl, fun _ => rfl⟩ hvars
    · exact .cons hv ih

theorem overwriteFrames_masks (name : String) (value : Value)
    (h : List.Forall₂ (List.Forall₂ (Variable.Masks names)) frames frames') :
    List.Forall₂ (List.Forall₂ (Variable.Masks names)) (overwriteFrames name value frames)
      (overwriteFrames name value frames') := by
  induction h with
  | nil => exact .nil
  | @cons frame frame' _ _ hframe houter ih =>
    have hbound : (binding? name frame').isSome ↔ (binding? name frame).isSome := by
      rw [isSome_binding?_iff, isSome_binding?_iff, names_masks hframe]
    rw [overwriteFrames, overwriteFrames, if_congr hbound rfl rfl]
    split
    · exact .cons (overwrite_masks name value hframe) houter
    · exact .cons hframe ih

end Masks

/-- Where a call begins. -/
theorem Masks.alike {bindings : List (String × Value)} (h : Masks (bindings.map Prod.fst) s t) :
    Alike (bindings.map Prod.fst) s.depth (s.push bindings) (t.push bindings) :=
  ⟨[_], s.frames, t.frames, rfl, rfl, rfl, bindsAll_bindings bindings, h.frames, h.globals, h.cells⟩

namespace Alike

variable {count : Nat}

theorem find?_eq (h : Alike names count t t') (name : String) : t'.find? name = t.find? name := by
  obtain ⟨upper, lower, lower', hframes, hframes', -, hbinds, hlower, hglobals, -⟩ := h
  rw [Scope.find?, Scope.find?, hframes, hframes', List.findSome?_append, List.findSome?_append]
  cases hbound : upper.findSome? (binding? name) with
  | some v => rfl
  | none =>
    have hname := hbinds.notMem hbound
    rw [findSome?_masks hlower hname, binding?_masks hglobals hname]

theorem globals_masks (h : Alike names count t t') :
    List.Forall₂ (Variable.Masks names) t.globals t'.globals := by
  obtain ⟨upper, lower, lower', -, -, -, -, -, hglobals, -⟩ := h
  exact hglobals

theorem cells_eq (h : Alike names count t t') : t'.cells = t.cells := by
  obtain ⟨upper, lower, lower', -, -, -, -, -, -, hcells⟩ := h
  exact hcells

theorem get?_eq (h : Alike names count t t') (name : String) : t'.get? name = t.get? name := by
  have hread : t'.read = t.read := by
    funext v
    simp only [Scope.read, cell?, h.cells_eq]
  rw [get?, get?, h.find?_eq, hread]

theorem names_eq (h : Alike names count t t') : t'.names = t.names := names_masks h.globals_masks

theorem depth_eq (h : Alike names count t t') : t'.depth = t.depth := by
  obtain ⟨upper, lower, lower', hframes, hframes', -, -, hlower, -⟩ := h
  rw [depth, depth, hframes, hframes', List.length_append, List.length_append,
    hlower.length_eq]

theorem push (h : Alike names count t t') (bindings : List (String × Value)) :
    Alike names count (t.push bindings) (t'.push bindings) := by
  obtain ⟨upper, lower, lower', hframes, hframes', hcount, hbinds, hrest⟩ := h
  refine ⟨(bindings.map fun (name, value) => ⟨name, .own value⟩) :: upper, lower, lower', ?_, ?_,
    hcount, hbinds.cons _, hrest⟩
  · rw [Scope.push, hframes]
    rfl
  · rw [Scope.push, hframes']
    rfl

theorem pop {bindings : List (String × Value)} (h : Alike names count t t')
    (hcontinues : (t.push bindings).Continues u) (halike : Alike names count u u') :
    Alike names count u.pop u'.pop := by
  obtain ⟨upper, lower, -, hframes, -, hcount, hbinds, -⟩ := h
  obtain ⟨upper', below, below', hbelow, hbelow', hcount', -, hrest⟩ := halike
  have hnames := hcontinues.frames
  rw [hbelow, Scope.push, hframes] at hnames
  obtain ⟨top, rest, rfl, hupper⟩ := exists_upper (hcount'.trans hcount.symm) hnames
  refine ⟨rest, below, below', ?_, ?_, hcount', hbinds.of_names hupper, hrest⟩
  · rw [Scope.pop, hbelow]
    rfl
  · rw [Scope.pop, hbelow']
    rfl

theorem isSome_iff (h : Alike names count t t') (name : String) :
    (t'.frames.findSome? (binding? name)).isSome ↔
      (t.frames.findSome? (binding? name)).isSome := by
  obtain ⟨upper, lower, lower', hframes, hframes', -, -, hlower, -⟩ := h
  rw [isSome_findSome?_iff, isSome_findSome?_iff, hframes, hframes', List.map_append,
    List.map_append, frameNames_masks hlower]

theorem overwriteFrames (h : Alike names count t t') (name : String) (value : Value) :
    Alike names count { t with frames := Scope.overwriteFrames name value t.frames }
      { t' with frames := Scope.overwriteFrames name value t'.frames } := by
  obtain ⟨upper, lower, lower', hframes, hframes', hcount, hbinds, hlower, hrest⟩ := h
  by_cases hupper : (upper.findSome? (binding? name)).isSome
  · refine ⟨Scope.overwriteFrames name value upper, lower, lower', ?_, ?_, hcount, ?_, hlower,
      hrest⟩
    · rw [hframes, overwriteFrames_append, if_pos hupper]
    · rw [hframes', overwriteFrames_append, if_pos hupper]
    · exact hbinds.of_names (names_overwriteFrames name value upper)
  · refine ⟨upper, Scope.overwriteFrames name value lower, Scope.overwriteFrames name value lower',
      ?_, ?_, ?_, hbinds, overwriteFrames_masks name value hlower, hrest⟩
    · rw [hframes, overwriteFrames_append, if_neg hupper]
    · rw [hframes', overwriteFrames_append, if_neg hupper]
    · have hlength := congrArg List.length (names_overwriteFrames name value lower)
      rw [List.length_map, List.length_map] at hlength
      rw [hlength, hcount]

theorem withGlobals {globals globals' : List Variable} (h : Alike names count t t')
    (hglobals : List.Forall₂ (Variable.Masks names) globals globals') :
    Alike names count { t with globals } { t' with globals := globals' } := by
  obtain ⟨upper, lower, lower', hframes, hframes', hcount, hbinds, hlower, -, hcells⟩ := h
  exact ⟨upper, lower, lower', hframes, hframes', hcount, hbinds, hlower, hglobals, hcells⟩

theorem writeCell (h : Alike names count t t') (id : CellId) (value : Value) :
    Alike names count (t.writeCell id value) (t'.writeCell id value) := by
  obtain ⟨upper, lower, lower', hframes, hframes', hcount, hbinds, hlower, hglobals, hcells⟩ := h
  refine ⟨upper, lower, lower', hframes, hframes', hcount, hbinds, hlower, hglobals, ?_⟩
  rw [Scope.writeCell, Scope.writeCell, hcells]

/-- An assignment goes the same way. -/
theorem set (h : Alike names count t t') (name : String) (value : Value) :
    (∃ error, t.set name value = .error error ∧ t'.set name value = .error error) ∨
      ∃ u u', t.set name value = .ok u ∧ t'.set name value = .ok u' ∧ Alike names count u u' := by
  have hglobals := h.globals_masks
  rw [Scope.set, Scope.set, h.find?_eq name]
  cases t.find? name with
  | none =>
    simp only [addGlobal]
    cases Name.check name with
    | error e => exact .inl ⟨e, rfl, rfl⟩
    | ok checked =>
      refine .inr ⟨_, _, rfl, rfl, h.withGlobals ?_⟩
      exact List.rel_append hglobals (.cons ⟨rfl, fun _ => rfl⟩ .nil)
  | some v =>
    refine .inr ?_
    obtain ⟨found, storage⟩ := v
    cases storage with
    | shared id => exact ⟨_, _, rfl, rfl, h.writeCell id value⟩
    | own old =>
      dsimp only
      rw [if_congr (h.isSome_iff name) rfl rfl]
      split
      · exact ⟨_, _, rfl, rfl, h.overwriteFrames name value⟩
      · exact ⟨_, _, rfl, rfl, h.withGlobals (overwrite_masks name value hglobals)⟩

end Alike

end Scope

end Reckoner
