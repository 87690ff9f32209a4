import Mathlib.Data.List.Nodup
import Reckoner.Scope

/-!
Frames of calls, and one flat list of variables in their place. By names alone the two cannot be
told apart: a call gets its parameters in a frame that is dropped behind it, or writes them over the
variables there are and puts these back.
-/

namespace Reckoner

def Variable.IsOwned (v : Variable) : Prop := ∃ value, v.storage = .own value

namespace Scope

structure OwnsAll (s : Scope) : Prop where
  globals : ∀ v ∈ s.globals, v.IsOwned
  frames : ∀ frame ∈ s.frames, ∀ v ∈ frame, v.IsOwned

/-! Names in one list of variables. -/

section Binding

variable {name : String} {v : Variable} {vars : List Variable}

theorem binding?_cons (name : String) (v : Variable) (vars : List Variable) :
    binding? name (v :: vars) = if v.name = name then some v else binding? name vars := by
  by_cases h : v.name = name
  · rw [if_pos h, binding?, List.find?_cons_of_pos (by simpa using h)]
  · rw [if_neg h, binding?, List.find?_cons_of_neg (by simpa using h), binding?]

theorem mem_of_binding? (h : binding? name vars = some v) : v ∈ vars :=
  List.mem_of_find?_eq_some h

theorem binding?_eq_none : binding? name vars = none ↔ name ∉ vars.map Variable.name := by
  simp [binding?]

theorem binding?_append (name : String) (vars more : List Variable) :
    binding? name (vars ++ more) = (binding? name vars).or (binding? name more) :=
  List.find?_append

theorem binding?_overwrite (name other : String) (value : Value) (vars : List Variable) :
    binding? other (overwrite name value vars) =
      if other = name then (binding? name vars).map fun _ => ⟨name, .own value⟩
      else binding? other vars := by
  induction vars with
  | nil => simp [overwrite, binding?]
  | cons v vars ih =>
    rw [overwrite, binding?_cons name, binding?_cons other]
    by_cases hv : v.name = name
    · rw [if_pos hv, if_pos hv, binding?_cons, hv]
      by_cases hother : other = name
      · simp [hother]
      · rw [if_neg (Ne.symm hother), if_neg hother, if_neg (Ne.symm hother)]
    · rw [if_neg hv, if_neg hv, binding?_cons, ih]
      by_cases hother : other = name
      · rw [if_pos hother, if_pos hother, if_neg (hother ▸ hv)]
      · rw [if_neg hother, if_neg hother]

theorem names_overwrite (name : String) (value : Value) (vars : List Variable) :
    (overwrite name value vars).map Variable.name = vars.map Variable.name := by
  induction vars with
  | nil => rfl
  | cons v vars ih =>
    rw [overwrite]
    split
    · next hv => simp [hv]
    · simp [ih]

theorem forall_overwrite {P : Variable → Prop} {name : String} {value : Value}
    (hvalue : P ⟨name, .own value⟩) (h : ∀ v ∈ vars, P v) :
    ∀ v ∈ overwrite name value vars, P v := by
  induction vars with
  | nil => exact h
  | cons v vars ih =>
    obtain ⟨hv, hvars⟩ := List.forall_mem_cons.1 h
    rw [overwrite]
    split
    · exact List.forall_mem_cons.2 ⟨hvalue, hvars⟩
    · exact List.forall_mem_cons.2 ⟨hv, ih hvars⟩

end Binding

/-! Names in all frames and the globals. -/

variable {s t u : Scope} {name other : String} {value : Value}

theorem bindings_overwriteFrames (name other : String) (value : Value)
    (frames : List (List Variable)) :
    (overwriteFrames name value frames).findSome? (binding? other) =
      if other = name then (frames.findSome? (binding? name)).map fun _ => ⟨name, .own value⟩
      else frames.findSome? (binding? other) := by
  induction frames with
  | nil => simp [overwriteFrames]
  | cons frame outer ih =>
    rw [overwriteFrames]
    by_cases hbound : (binding? name frame).isSome
    · obtain ⟨v, hv⟩ := Option.isSome_iff_exists.1 hbound
      rw [if_pos hbound, List.findSome?_cons, binding?_overwrite]
      by_cases hother : other = name
      · simp [hother, hv]
      · simp [hother, List.findSome?_cons]
    · rw [Option.not_isSome_iff_eq_none] at hbound
      rw [hbound, if_neg (by simp), List.findSome?_cons, ih]
      by_cases hother : other = name
      · simp [hother, hbound]
      · simp [hother, List.findSome?_cons]

theorem forall_overwriteFrames {P : Variable → Prop} {frames : List (List Variable)}
    (hvalue : P ⟨name, .own value⟩) (h : ∀ frame ∈ frames, ∀ v ∈ frame, P v) :
    ∀ frame ∈ overwriteFrames name value frames, ∀ v ∈ frame, P v := by
  induction frames with
  | nil => exact h
  | cons frame outer ih =>
    obtain ⟨hframe, houter⟩ := List.forall_mem_cons.1 h
    rw [overwriteFrames]
    split
    · exact List.forall_mem_cons.2 ⟨forall_overwrite hvalue hframe, houter⟩
    · exact List.forall_mem_cons.2 ⟨hframe, ih houter⟩

theorem isOwned_of_find? (h : s.OwnsAll) {v : Variable} (hfind : s.find? name = some v) :
    v.IsOwned := by
  rcases Option.or_eq_some_iff.1 hfind with hframe | ⟨-, hglobal⟩
  · obtain ⟨frame, hframe, hv⟩ := List.exists_of_findSome?_eq_some hframe
    exact h.frames frame hframe v (mem_of_binding? hv)
  · exact h.globals v (mem_of_binding? hglobal)

theorem isSome_find? (s : Scope) (name : String) :
    (s.find? name).isSome = (s.get? name).isSome := by
  rw [get?, Option.isSome_map]

/-- Values that variables hold themselves are read in any scope. -/
theorem get?_congr (h : s.OwnsAll) (hfind : t.find? name = s.find? name) :
    t.get? name = s.get? name := by
  rw [get?, get?, hfind]
  refine Option.map_congr fun v hv => ?_
  obtain ⟨value, hvalue⟩ := isOwned_of_find? h hv
  rw [read, read, hvalue]

theorem get?_of_find? (h : s.find? name = some ⟨other, .own value⟩) : s.get? name = some value := by
  rw [get?, h]
  rfl

def put (s : Scope) (name : String) (value : Value) : Scope :=
  { s with
    globals :=
      if (binding? name s.globals).isSome then overwrite name value s.globals
      else s.globals ++ [⟨name, .own value⟩] }

theorem binding?_put (s : Scope) (name other : String) (value : Value) :
    binding? other (s.put name value).globals =
      if other = name then some ⟨name, .own value⟩ else binding? other s.globals := by
  simp only [put]
  split
  · next hbound =>
    obtain ⟨v, hv⟩ := Option.isSome_iff_exists.1 hbound
    rw [binding?_overwrite, hv]
    rfl
  · next hbound =>
    rw [Option.not_isSome_iff_eq_none] at hbound
    rw [binding?_append, binding?_cons]
    by_cases hother : other = name
    · simp [hother, hbound]
    · simp [hother, Ne.symm hother, binding?]

theorem OwnsAll.put (h : s.OwnsAll) (name : String) (value : Value) :
    (s.put name value).OwnsAll := by
  refine ⟨?_, h.frames⟩
  simp only [Scope.put]
  split
  · exact forall_overwrite ⟨value, rfl⟩ h.globals
  · intro v hv
    rcases List.mem_append.1 hv with hv | hv
    · exact h.globals v hv
    · rw [List.mem_singleton.1 hv]
      exact ⟨value, rfl⟩

theorem eq_of_check {checked : String} (h : Name.check name = .ok checked) : checked = name := by
  unfold Name.check Name.fit at h
  split at h
  · split at h <;> cases h
    rfl
  · cases h

/-- An assignment writes a cell, overwrites in a frame, or writes a global. -/
theorem set_cases (hset : s.set name value = .ok t) :
    (∃ found id, s.find? name = some ⟨found, .shared id⟩ ∧ t = s.writeCell id value) ∨
      (s.frames.findSome? (binding? name)).isSome ∧
        t = { s with frames := overwriteFrames name value s.frames } ∨
      s.frames.findSome? (binding? name) = none ∧ t = s.put name value := by
  unfold set at hset
  split at hset
  · next found id hshared =>
    cases hset
    exact .inl ⟨found, id, hshared, rfl⟩
  · next hown =>
    refine .inr ?_
    by_cases hframe : (s.frames.findSome? (binding? name)).isSome
    · rw [if_pos hframe] at hset
      cases hset
      exact .inl ⟨hframe, rfl⟩
    · rw [if_neg hframe] at hset
      rw [Option.not_isSome_iff_eq_none] at hframe
      cases hset
      rw [find?, hframe, Option.none_or] at hown
      refine .inr ⟨hframe, ?_⟩
      rw [put, if_pos (by rw [hown]; rfl)]
  · next hnone =>
    obtain ⟨hframe, hglobal⟩ := Option.or_eq_none_iff.1 hnone
    refine .inr (.inr ⟨hframe, ?_⟩)
    rw [addGlobal] at hset
    cases hcheck : Name.check name with
    | error e =>
      rw [hcheck] at hset
      cases hset
    | ok checked =>
      rw [hcheck, eq_of_check hcheck] at hset
      cases hset
      rw [put, if_neg (by rw [hglobal]; simp)]

/-- An assignment to a variable that holds its value itself. -/
theorem set_eq_ok (hown : ∀ v, s.find? name = some v → v.IsOwned)
    (hset : s.set name value = .ok t) :
    (s.frames.findSome? (binding? name)).isSome ∧
        t = { s with frames := overwriteFrames name value s.frames } ∨
      s.frames.findSome? (binding? name) = none ∧ t = s.put name value := by
  rcases set_cases hset with ⟨found, id, hshared, -⟩ | hcases
  · obtain ⟨value, hvalue⟩ := hown _ hshared
    cases hvalue
  · exact hcases

theorem find?_set (hown : ∀ v, s.find? name = some v → v.IsOwned)
    (hset : s.set name value = .ok t) (other : String) :
    t.find? other = if other = name then some ⟨name, .own value⟩ else s.find? other := by
  rcases set_eq_ok hown hset with ⟨hframe, rfl⟩ | ⟨hframe, rfl⟩
  · obtain ⟨v, hv⟩ := Option.isSome_iff_exists.1 hframe
    simp only [find?, bindings_overwriteFrames, hv]
    split <;> rfl
  · have hframes : (s.put name value).frames = s.frames := rfl
    rw [find?, find?, binding?_put, hframes]
    by_cases hother : other = name
    · rw [if_pos hother, if_pos hother, hother, hframe]
      rfl
    · rw [if_neg hother, if_neg hother]

theorem get?_set (h : s.OwnsAll) (hset : s.set name value = .ok t) (other : String) :
    t.get? other = if other = name then some value else s.get? other := by
  have hfind := find?_set (fun _ => isOwned_of_find? h) hset other
  split at hfind
  · next hother =>
    rw [if_pos hother, get?_of_find? hfind]
  · next hother =>
    rw [if_neg hother, get?_congr h hfind]

theorem get?_set_self {old : Value} (hfind : s.find? name = some ⟨other, .own old⟩)
    (hset : s.set name value = .ok t) : t.get? name = some value := by
  have hown (v : Variable) (hv : s.find? name = some v) : v.IsOwned := by
    cases hfind.symm.trans hv
    exact ⟨old, rfl⟩
  exact get?_of_find? ((find?_set hown hset name).trans (if_pos rfl))

theorem OwnsAll.set (h : s.OwnsAll) (hset : s.set name value = .ok t) : t.OwnsAll := by
  rcases set_eq_ok (fun _ => isOwned_of_find? h) hset with ⟨-, rfl⟩ | ⟨-, rfl⟩
  · exact ⟨h.globals, forall_overwriteFrames ⟨value, rfl⟩ h.frames⟩
  · exact h.put name value

theorem exists_set_of_find? {v : Variable} (h : s.find? name = some v) (value : Value) :
    ∃ t, s.set name value = .ok t := by
  obtain ⟨found, storage⟩ := v
  unfold set
  rw [h]
  cases storage with
  | shared id => exact ⟨_, rfl⟩
  | own old =>
    dsimp only
    split
    · exact ⟨_, rfl⟩
    · exact ⟨_, rfl⟩

/-- Where a name means the same, assignments to it succeed or fail alike. -/
theorem set_both (hsame : s.get? name = t.get? name) (value : Value) :
    (∃ error, s.set name value = .error error ∧ t.set name value = .error error) ∨
      ∃ s' t', s.set name value = .ok s' ∧ t.set name value = .ok t' := by
  have hsome : (s.find? name).isSome = (t.find? name).isSome := by
    rw [isSome_find?, isSome_find?, hsame]
  cases hs : s.find? name with
  | some v =>
    rw [hs] at hsome
    obtain ⟨w, hw⟩ := Option.isSome_iff_exists.1 hsome.symm
    obtain ⟨s', hs'⟩ := exists_set_of_find? hs value
    obtain ⟨t', ht'⟩ := exists_set_of_find? hw value
    exact .inr ⟨s', t', hs', ht'⟩
  | none =>
    rw [hs] at hsome
    have ht : t.find? name = none := by simpa using hsome.symm
    simp only [set, hs, ht, addGlobal]
    cases Name.check name with
    | error e => exact .inl ⟨e, rfl, rfl⟩
    | ok checked => exact .inr ⟨_, _, rfl, rfl⟩

/-! What stays of a scope while the frames on it come and go. -/

/-- Each frame binds the names that it did, and what these mean below it is the same. -/
inductive KeepsFrames (globals globals' : List Variable) :
    List (List Variable) → List (List Variable) → Prop where
  | nil : KeepsFrames globals globals' [] []
  | cons {frame frame' : List Variable} {outer outer' : List (List Variable)}
      (hnames : frame'.map Variable.name = frame.map Variable.name)
      (hbelow : ∀ name ∈ frame.map Variable.name,
        (outer'.findSome? (binding? name)).or (binding? name globals') =
          (outer.findSome? (binding? name)).or (binding? name globals))
      (h : KeepsFrames globals globals' outer outer') :
      KeepsFrames globals globals' (frame :: outer) (frame' :: outer')

def Keeps (s t : Scope) : Prop := KeepsFrames s.globals t.globals s.frames t.frames

section KeepsFrames

variable {globals globals' globals'' : List Variable}
  {frames frames' frames'' : List (List Variable)}

theorem KeepsFrames.refl (globals : List Variable) (frames : List (List Variable)) :
    KeepsFrames globals globals frames frames := by
  induction frames with
  | nil => exact .nil
  | cons frame outer ih => exact .cons rfl (fun _ _ => rfl) ih

theorem KeepsFrames.trans (h : KeepsFrames globals globals' frames frames')
    (h' : KeepsFrames globals' globals'' frames' frames'') :
    KeepsFrames globals globals'' frames frames'' := by
  induction h generalizing frames'' with
  | nil =>
    cases h'
    exact .nil
  | cons hnames hbelow _ ih =>
    cases h' with
    | cons hnames' hbelow' h' =>
      refine .cons (hnames'.trans hnames) (fun name hname => ?_) (ih h')
      exact (hbelow' name (hnames ▸ hname)).trans (hbelow name hname)

theorem ne_of_mem_names {frame : List Variable} (h : binding? name frame = none)
    (hother : other ∈ frame.map Variable.name) : other ≠ name := by
  rintro rfl
  exact binding?_eq_none.1 h hother

/-- Below the frame that binds the name, nothing changes. -/
theorem keepsFrames_overwriteFrames (globals : List Variable) (name : String) (value : Value)
    (frames : List (List Variable)) :
    KeepsFrames globals globals frames (overwriteFrames name value frames) := by
  induction frames with
  | nil => exact .nil
  | cons frame outer ih =>
    rw [overwriteFrames]
    split
    · exact .cons (names_overwrite name value frame) (fun _ _ => rfl) (.refl globals outer)
    · next hbound =>
      rw [Option.not_isSome_iff_eq_none] at hbound
      refine .cons rfl (fun other hother => ?_) ih
      rw [bindings_overwriteFrames, if_neg (ne_of_mem_names hbound hother)]

/-- A name that no frame binds may change its meaning. -/
theorem keepsFrames_put (s : Scope) (value : Value) (h : frames.findSome? (binding? name) = none) :
    KeepsFrames s.globals (s.put name value).globals frames frames := by
  induction frames with
  | nil => exact .nil
  | cons frame outer ih =>
    obtain ⟨hbound, houter⟩ := List.forall_mem_cons.1 (List.findSome?_eq_none_iff.1 h)
    refine .cons rfl (fun other hother => ?_) (ih (List.findSome?_eq_none_iff.2 houter))
    rw [binding?_put, if_neg (ne_of_mem_names hbound hother)]

end KeepsFrames

theorem Keeps.refl (s : Scope) : s.Keeps s := KeepsFrames.refl s.globals s.frames

theorem Keeps.trans (h : s.Keeps t) (h' : t.Keeps u) : s.Keeps u := KeepsFrames.trans h h'

theorem keeps_set (h : s.OwnsAll) (hset : s.set name value = .ok t) : s.Keeps t := by
  rcases set_eq_ok (fun _ => isOwned_of_find? h) hset with ⟨-, rfl⟩ | ⟨hframe, rfl⟩
  · exact keepsFrames_overwriteFrames s.globals name value s.frames
  · exact keepsFrames_put s value hframe

/-! A call on a frame of its own. -/

theorem binding?_map (name : String) (bindings : List (String × Value)) :
    binding? name (bindings.map fun (name, value) => ⟨name, .own value⟩) =
      (bindings.lookup name).map fun value => ⟨name, .own value⟩ := by
  induction bindings with
  | nil => rfl
  | cons entry more ih =>
    obtain ⟨first, value⟩ := entry
    rw [List.map_cons, binding?_cons, List.lookup_cons, ih]
    by_cases h : first = name
    · simp [h]
    · rw [if_neg h, beq_false_of_ne (Ne.symm h)]

theorem OwnsAll.push (h : s.OwnsAll) (bindings : List (String × Value)) :
    (s.push bindings).OwnsAll := by
  refine ⟨h.globals, List.forall_mem_cons.2 ⟨fun v hv => ?_, h.frames⟩⟩
  obtain ⟨⟨name, value⟩, -, rfl⟩ := List.mem_map.1 hv
  exact ⟨value, rfl⟩

theorem OwnsAll.pop (h : s.OwnsAll) : s.pop.OwnsAll :=
  ⟨h.globals, fun frame hframe => h.frames frame (List.mem_of_mem_drop hframe)⟩

theorem get?_push (h : s.OwnsAll) (bindings : List (String × Value)) (name : String) :
    (s.push bindings).get? name = (bindings.lookup name).or (s.get? name) := by
  have hfind : (s.push bindings).find? name =
      ((bindings.lookup name).map fun value => ⟨name, .own value⟩).or (s.find? name) := by
    rw [find?, find?, push, List.findSome?_cons, binding?_map]
    cases bindings.lookup name <;> rfl
  cases hlookup : bindings.lookup name with
  | none =>
    rw [hlookup] at hfind
    exact get?_congr h hfind
  | some value =>
    rw [hlookup] at hfind
    exact get?_of_find? hfind

/-- The frame of a call that is over binds its parameters, and below it they mean what they did. -/
theorem exists_frame {bindings : List (String × Value)} (h : (s.push bindings).Keeps t) :
    ∃ frame outer, t.frames = frame :: outer ∧
      frame.map Variable.name = bindings.map Prod.fst ∧
      (∀ name ∈ bindings.map Prod.fst, t.pop.find? name = s.find? name) ∧ s.Keeps t.pop := by
  obtain ⟨globals, frames, cells⟩ := t
  cases h with
  | @cons _ frame _ outer hnames hbelow h =>
    rw [List.map_map] at hnames hbelow
    exact ⟨frame, outer, rfl, hnames, hbelow, h⟩

/-- Behind a call its parameters mean what they did before, and other names what they do now. -/
theorem get?_pop {bindings : List (String × Value)} (hs : s.OwnsAll) (ht : t.OwnsAll)
    (h : (s.push bindings).Keeps t) (name : String) :
    t.pop.get? name = if name ∈ bindings.map Prod.fst then s.get? name else t.get? name := by
  obtain ⟨frame, outer, hframes, hnames, hbelow, -⟩ := exists_frame h
  by_cases hname : name ∈ bindings.map Prod.fst
  · rw [if_pos hname, get?_congr hs (hbelow name hname)]
  · rw [if_neg hname]
    refine get?_congr ht ?_
    rw [← hnames] at hname
    rw [find?, find?, pop, hframes, List.findSome?_cons, binding?_eq_none.2 hname]
    rfl

/-! A call on the variables there are. -/

structure IsFlat (s : Scope) : Prop where
  frames : s.frames = []
  ownsAll : s.OwnsAll

theorem find?_of_isFlat (h : s.IsFlat) (name : String) :
    s.find? name = binding? name s.globals := by
  rw [find?, h.frames]
  rfl

theorem IsFlat.set (h : s.IsFlat) (hset : s.set name value = .ok t) : t.IsFlat := by
  refine ⟨?_, h.ownsAll.set hset⟩
  rcases set_eq_ok (fun _ => isOwned_of_find? h.ownsAll) hset with ⟨-, rfl⟩ | ⟨-, rfl⟩
  · simp only [h.frames, overwriteFrames]
  · exact h.frames

theorem IsFlat.put (h : s.IsFlat) (name : String) (value : Value) : (s.put name value).IsFlat :=
  ⟨h.frames, h.ownsAll.put name value⟩

theorem get?_put (h : s.IsFlat) (name : String) (value : Value) (other : String) :
    (s.put name value).get? other = if other = name then some value else s.get? other := by
  have hfind := find?_of_isFlat (h.put name value) other
  rw [binding?_put] at hfind
  split at hfind
  · next hother =>
    rw [if_pos hother, get?_of_find? hfind]
  · next hother =>
    rw [if_neg hother]
    exact get?_congr h.ownsAll (hfind.trans (find?_of_isFlat h other).symm)

def putAll (s : Scope) (bindings : List (String × Value)) : Scope :=
  bindings.foldl (fun s (name, value) => s.put name value) s

theorem IsFlat.putAll (h : s.IsFlat) (bindings : List (String × Value)) :
    (s.putAll bindings).IsFlat := by
  induction bindings generalizing s with
  | nil => exact h
  | cons entry more ih => exact ih (h.put entry.1 entry.2)

/-- The order does not matter when no name is written twice. -/
theorem get?_putAll (h : s.IsFlat) {bindings : List (String × Value)}
    (hdistinct : (bindings.map Prod.fst).Nodup) (name : String) :
    (s.putAll bindings).get? name = (bindings.lookup name).or (s.get? name) := by
  induction bindings generalizing s with
  | nil => rfl
  | cons entry more ih =>
    obtain ⟨first, value⟩ := entry
    obtain ⟨hfirst, hdistinct⟩ := List.nodup_cons.1 hdistinct
    rw [putAll, List.foldl_cons]
    refine (ih (h.put first value) hdistinct).trans ?_
    rw [get?_put h, List.lookup_cons]
    by_cases hname : name = first
    · have hnone : more.lookup first = none := by
        rw [List.lookup_eq_none_iff]
        intro entry hentry
        have hne : first ≠ entry.1 := by
          intro heq
          exact hfirst (List.mem_map.2 ⟨entry, hentry, heq.symm⟩)
        simpa using hne
      simp [hname, hnone]
    · rw [if_neg hname, beq_false_of_ne hname]

def putBack (s : Scope) (name : String) : Option Value → Scope
  | some value => s.put name value
  | none => s.withoutGlobal name

theorem IsFlat.putBack (h : s.IsFlat) (name : String) (old : Option Value) :
    (s.putBack name old).IsFlat := by
  cases old with
  | some value => exact h.put name value
  | none =>
    exact ⟨h.frames, fun v hv => h.ownsAll.globals v (List.mem_of_mem_filter hv), h.ownsAll.frames⟩

theorem binding?_withoutGlobal (s : Scope) (name other : String) :
    binding? other (s.withoutGlobal name).globals =
      if other = name then none else binding? other s.globals := by
  by_cases hother : other = name
  · rw [if_pos hother, binding?_eq_none]
    simp [withoutGlobal, hother]
  · rw [if_neg hother, withoutGlobal, binding?, binding?, List.find?_filter]
    refine congrArg (List.find? · s.globals) (funext fun v => ?_)
    by_cases hv : v.name = other
    · simp [hv, hother]
    · simp [hv]

theorem get?_putBack (h : s.IsFlat) (name : String) (old : Option Value) (other : String) :
    (s.putBack name old).get? other = if other = name then old else s.get? other := by
  cases old with
  | some value => exact get?_put h name value other
  | none =>
    have hfind := find?_of_isFlat (h.putBack name none) other
    rw [putBack, binding?_withoutGlobal] at hfind
    rw [putBack]
    by_cases hother : other = name
    · rw [if_pos hother] at hfind
      rw [if_pos hother, get?, hfind]
      rfl
    · rw [if_neg hother] at hfind
      rw [if_neg hother]
      exact get?_congr h.ownsAll (hfind.trans (find?_of_isFlat h other).symm)

def restore (s : Scope) (saved : List (String × Option Value)) : Scope :=
  saved.foldl (fun s (name, old) => s.putBack name old) s

theorem IsFlat.restore (h : s.IsFlat) (saved : List (String × Option Value)) :
    (s.restore saved).IsFlat := by
  induction saved generalizing s with
  | nil => exact h
  | cons entry more ih => exact ih (h.putBack entry.1 entry.2)

theorem get?_restore (h : s.IsFlat) (names : List String) (before : String → Option Value)
    (name : String) :
    (s.restore (names.map fun name => (name, before name))).get? name =
      if name ∈ names then before name else s.get? name := by
  induction names generalizing s with
  | nil => rfl
  | cons first more ih =>
    refine (ih (h.putBack first (before first))).trans ?_
    rw [get?_putBack h]
    by_cases hname : name = first
    · simp [hname]
    · simp [hname]

/-! Names that stay. -/

/-- The frames bind the names that they did, and the globals are those that there were, in their
order, with new ones behind them. -/
structure Continues (s t : Scope) : Prop where
  frames : t.frames.map (·.map Variable.name) = s.frames.map (·.map Variable.name)
  globals : ∃ created, t.names = s.names ++ created ∧ created.Nodup ∧ s.names.Disjoint created

theorem continues_of_names (hframes : t.frames.map (·.map Variable.name) =
    s.frames.map (·.map Variable.name)) (hnames : t.names = s.names) : s.Continues t :=
  ⟨hframes, [], by simp [hnames]⟩

theorem Continues.refl (s : Scope) : s.Continues s := continues_of_names rfl rfl

theorem Continues.trans (h : s.Continues t) (h' : t.Continues u) : s.Continues u := by
  obtain ⟨created, hnames, hnodup, hdisjoint⟩ := h.globals
  obtain ⟨created', hnames', hnodup', hdisjoint'⟩ := h'.globals
  rw [hnames, List.disjoint_append_left] at hdisjoint'
  refine ⟨h'.frames.trans h.frames, created ++ created', ?_, ?_, ?_⟩
  · rw [hnames', hnames, List.append_assoc]
  · exact List.nodup_append'.2 ⟨hnodup, hnodup', hdisjoint'.2⟩
  · exact List.disjoint_append_right.2 ⟨hdisjoint, hdisjoint'.1⟩

theorem Continues.depth_eq (h : s.Continues t) : t.depth = s.depth := by
  have hlength := congrArg List.length h.frames
  rwa [List.length_map, List.length_map] at hlength

theorem names_overwriteFrames (name : String) (value : Value) (frames : List (List Variable)) :
    (overwriteFrames name value frames).map (·.map Variable.name) =
      frames.map (·.map Variable.name) := by
  induction frames with
  | nil => rfl
  | cons frame outer ih =>
    rw [overwriteFrames]
    split
    · rw [List.map_cons, List.map_cons, names_overwrite]
    · rw [List.map_cons, List.map_cons, ih]

/-- A global is created only if there is none of that name. -/
theorem continues_put (s : Scope) (name : String) (value : Value) :
    s.Continues (s.put name value) := by
  rw [put]
  split
  · exact continues_of_names rfl (names_overwrite name value s.globals)
  · next hnone =>
    refine ⟨rfl, [name], by simp [names], List.nodup_singleton name, ?_⟩
    rw [Option.not_isSome_iff_eq_none, binding?_eq_none] at hnone
    exact List.disjoint_singleton.2 hnone

theorem continues_set (h : s.set name value = .ok t) : s.Continues t := by
  rcases set_cases h with ⟨found, id, -, rfl⟩ | ⟨-, rfl⟩ | ⟨-, rfl⟩
  · exact continues_of_names rfl rfl
  · exact continues_of_names (names_overwriteFrames name value s.frames) rfl
  · exact continues_put s name value

theorem continues_pop {bindings : List (String × Value)} (h : (s.push bindings).Continues t) :
    s.Continues t.pop := by
  refine ⟨?_, h.globals⟩
  rw [pop, List.map_drop, h.frames]
  rfl

structure Grows (s t : Scope) : Prop where
  frames : t.frames.map (·.map Variable.name) = s.frames.map (·.map Variable.name)
  globals : s.names ⊆ t.names

theorem Grows.refl (s : Scope) : s.Grows s := ⟨rfl, List.Subset.refl _⟩

theorem Grows.trans (h : s.Grows t) (h' : t.Grows u) : s.Grows u :=
  ⟨h'.frames.trans h.frames, List.Subset.trans h.globals h'.globals⟩

theorem Continues.grows (h : s.Continues t) : s.Grows t := by
  obtain ⟨created, hnames, -⟩ := h.globals
  exact ⟨h.frames, by simp [hnames]⟩

theorem grows_set (h : s.set name value = .ok t) : s.Grows t := (continues_set h).grows

theorem grows_pop {bindings : List (String × Value)} (h : (s.push bindings).Grows t) :
    s.Grows t.pop := by
  refine ⟨?_, h.globals⟩
  rw [pop, List.map_drop, h.frames]
  rfl

theorem isSome_binding?_iff (name : String) (vars : List Variable) :
    (binding? name vars).isSome ↔ name ∈ vars.map Variable.name := by
  rw [Option.isSome_iff_ne_none, ne_eq, binding?_eq_none, not_not]

/-- Whether frames bind a name depends on the names in them only. -/
theorem isSome_findSome?_iff (name : String) (frames : List (List Variable)) :
    (frames.findSome? (binding? name)).isSome ↔
      ∃ names ∈ frames.map (·.map Variable.name), name ∈ names := by
  simp only [List.findSome?_isSome_iff, isSome_binding?_iff, List.mem_map,
    exists_exists_and_eq_and]

theorem isSome_find?_iff (s : Scope) (name : String) :
    (s.find? name).isSome ↔
      (∃ names ∈ s.frames.map (·.map Variable.name), name ∈ names) ∨ name ∈ s.names := by
  rw [find?, Option.isSome_or, Bool.or_eq_true, isSome_findSome?_iff, isSome_binding?_iff, names]

/-- What had a meaning still has one. -/
theorem Grows.isSome_get? (h : s.Grows t) (hname : (s.get? name).isSome) :
    (t.get? name).isSome := by
  rw [← isSome_find?, isSome_find?_iff] at hname ⊢
  rw [h.frames]
  exact hname.imp_right fun hmem => h.globals hmem

end Scope

end Reckoner
