import Mathlib
import Reckoner.Text.Blank

/-!
Comma-separated lists. Entries that hold neither a comma nor a blank, and are not empty, are read
back from the list that is written of them. Trimming drops blanks once and for all.
-/

namespace Reckoner.Text

variable {c : Char} {cs part rest : List Char} {parts : List (List Char)}

/-! Trimming. -/

/-- The characters with a shape of their own are no blanks, if they are encoded in one byte. -/
theorem isBlank_eq_false (h : 32 < c.toNat) (h' : c.toNat < 128) : isBlank c = false := by
  simp only [isBlank, blankRanges, List.any_cons, List.any_nil, Bool.or_eq_false_iff,
    Bool.and_eq_false_iff, decide_eq_false_iff_not, and_true]
  omega

theorem trimEnd_eq (cs : List Char) : trimEnd cs = cs.rdropWhile isBlank := rfl

theorem trim_cons (h : isBlank c = true) (cs : List Char) : trim (c :: cs) = trim cs := by
  rw [trim, trim, trimStart, trimStart, List.dropWhile_cons_of_pos h]

theorem trim_of_forall (h : ∀ c ∈ cs, isBlank c = false) : trim cs = cs := by
  have hstart : trimStart cs = cs :=
    List.dropWhile_eq_self_iff.2 fun _ => by simp [h _ (List.getElem_mem _)]
  have hend : trimEnd cs = cs :=
    List.rdropWhile_eq_self_iff.2 fun _ => by simp [h _ (List.getLast_mem _)]
  rw [trim, hstart, hend]

/-- What was trimmed begins with no blank, since it begins as the text without its first blanks, and
ends with none. -/
theorem trim_trim (cs : List Char) : trim (trim cs) = trim cs := by
  have hstart : trimStart (trim cs) = trim cs := by
    refine List.dropWhile_eq_self_iff.2 fun hpos => ?_
    have hfront : trim cs <+: trimStart cs := List.rdropWhile_prefix _ _
    rw [hfront.getElem hpos]
    exact List.dropWhile_get_zero_not _ _ _
  rw [trim, hstart, trim, trimEnd_eq, trimEnd_eq, List.rdropWhile_idempotent]

/-! Lists. -/

structure IsEntry (part : List Char) : Prop where
  ne_nil : part ≠ []
  ne_comma : ∀ c ∈ part, c ≠ ','
  ne_blank : ∀ c ∈ part, isBlank c = false

theorem fields_of_not_mem {separator : Char} (h : separator ∉ part) :
    fields separator part = [part] := by
  induction part with
  | nil => rfl
  | cons c part ih =>
    rw [List.mem_cons, not_or] at h
    rw [fields, if_neg (Ne.symm h.1), ih h.2]

theorem fields_append {separator : Char} (h : separator ∉ part) (rest : List Char) :
    fields separator (part ++ separator :: rest) = part :: fields separator rest := by
  induction part with
  | nil => rw [List.nil_append, fields, if_pos rfl]
  | cons c part ih =>
    rw [List.mem_cons, not_or] at h
    rw [List.cons_append, fields, if_neg (Ne.symm h.1), ih h.2]

/-- Blanks in front of a list mean nothing. -/
theorem entries_cons (h : isBlank c = true) (cs : List Char) : entries (c :: cs) = entries cs := by
  have hcomma : c ≠ ',' := by
    rintro rfl
    cases h
  rw [entries, entries, fields, if_neg hcomma]
  cases hfields : fields ',' cs with
  | nil => exact absurd hfields (fields_ne_nil ',' cs)
  | cons field more => rw [List.map_cons, List.map_cons, trim_cons h]

theorem IsEntry.comma_not_mem (h : IsEntry part) : ',' ∉ part := fun hmem => h.ne_comma _ hmem rfl

/-- A list is read back as it was written. -/
theorem entries_intercalate (h : ∀ part ∈ parts, IsEntry part) :
    entries (List.intercalate [',', ' '] parts) = parts := by
  induction parts with
  | nil => rfl
  | cons part more ih =>
    obtain ⟨hpart, hmore⟩ := List.forall_mem_cons.1 h
    cases more with
    | nil =>
      rw [List.intercalate_singleton, entries, fields_of_not_mem hpart.comma_not_mem]
      simp [trim_of_forall hpart.ne_blank, hpart.ne_nil]
    | cons next more =>
      rw [List.intercalate_cons_cons, List.append_assoc, List.cons_append, List.singleton_append,
        entries, fields_append hpart.comma_not_mem, List.map_cons, trim_of_forall hpart.ne_blank,
        List.filter_cons_of_pos (by simpa using hpart.ne_nil)]
      change part :: entries (' ' :: _) = _
      rw [entries_cons rfl, ih hmore]

theorem ne_nil_of_mem_entries (h : part ∈ entries cs) : part ≠ [] := by
  simpa using List.of_mem_filter h

/-- Whatever is in neither the separator nor the parts is not in the list. -/
theorem not_mem_intercalate {separator : List Char} (hseparator : c ∉ separator)
    (h : ∀ part ∈ parts, c ∉ part) : c ∉ List.intercalate separator parts := by
  induction parts with
  | nil => simp
  | cons part more ih =>
    obtain ⟨hpart, hmore⟩ := List.forall_mem_cons.1 h
    cases more with
    | nil => rwa [List.intercalate_singleton]
    | cons next more =>
      rw [List.intercalate_cons_cons]
      simp [hpart, hseparator, ih hmore]

end Reckoner.Text
