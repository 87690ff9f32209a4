import Reckoner.Proofs.Program.Clauses
import Reckoner.Proofs.Text.Entries

/-!
Written signatures. The letters of a set of kinds are read back as the set, and so a signature is
read back from its written form. The one set that has no letters is the empty one, which is never
read: an entry holds a letter, and every letter stands for a kind.
-/

namespace Reckoner

open Text (IsEntry)
open Program (bind_eq_ok)

namespace Kinds

theorem letters_eq_nil {kinds : Kinds} : kinds.letters = [] ↔ kinds = empty := by
  obtain ⟨boolean, integer, real, string, absent⟩ := kinds
  revert boolean integer real string absent
  decide

theorem letters_sublist (kinds : Kinds) : kinds.letters.Sublist ['b', 'i', 'r', 's', 'n'] := by
  obtain ⟨boolean, integer, real, string, absent⟩ := kinds
  revert boolean integer real string absent
  decide

theorem isEntry_letters {kinds : Kinds} (h : kinds ≠ empty) : IsEntry kinds.letters where
  ne_nil hnil := h (letters_eq_nil.1 hnil)
  ne_comma := by
    have hletters : ∀ c ∈ ['b', 'i', 'r', 's', 'n'], c ≠ ',' := by simp
    exact fun c hc => hletters c (kinds.letters_sublist.subset hc)
  ne_blank := by
    have hletters : ∀ c ∈ ['b', 'i', 'r', 's', 'n'], Text.isBlank c = false := by
      simp [Text.isBlank, Text.blankRanges]
    exact fun c hc => hletters c (kinds.letters_sublist.subset hc)

theorem letters_ne_dots (kinds : Kinds) : kinds.letters ≠ ['.', '.', '.'] := by
  intro hdots
  have hdot : '.' ∈ ['b', 'i', 'r', 's', 'n'] := kinds.letters_sublist.subset (hdots ▸ .head _)
  exact absurd hdot (by decide)

/-- A kind is never lost. -/
theorem union_ne_empty {kinds kind : Kinds} (h : kind ≠ empty) : kinds ∪ kind ≠ empty := by
  obtain ⟨boolean, integer, real, string, absent⟩ := kinds
  obtain ⟨boolean', integer', real', string', absent'⟩ := kind
  revert boolean integer real string absent boolean' integer' real' string' absent'
  decide

theorem ofLetter?_ne_empty {c : Char} {kind : Kinds} (h : ofLetter? c = some kind) :
    kind ≠ empty := by
  unfold ofLetter? at h
  split at h <;> cases h <;> decide

end Kinds

namespace Signature

open Kinds

variable {signature : Signature} {kinds : Kinds} {entry : List Char} {c : Char}

theorem readEntry_letters (kinds : Kinds) : readEntry kinds.letters = .ok kinds := by
  obtain ⟨boolean, integer, real, string, absent⟩ := kinds
  revert boolean integer real string absent
  decide

theorem ne_empty_of_readEntry (hentry : entry ≠ []) (h : readEntry entry = .ok kinds) :
    kinds ≠ empty := by
  obtain ⟨front, c, rfl⟩ := entry.eq_nil_or_concat.resolve_left hentry
  rw [readEntry, List.concat_eq_append, List.foldlM_append] at h
  obtain ⟨before, -, h⟩ := bind_eq_ok.1 h
  rw [List.foldlM_cons] at h
  obtain ⟨after, hletter, h⟩ := bind_eq_ok.1 h
  cases h
  cases hkind : ofLetter? c with
  | none => simp [hkind] at hletter
  | some kind =>
    simp only [hkind] at hletter
    cases hletter
    exact union_ne_empty (ofLetter?_ne_empty hkind)

theorem isEntry_parts (h : ∀ kinds ∈ signature.kinds, kinds ≠ empty) :
    ∀ part ∈ signature.parts, IsEntry part := by
  intro part hpart
  rcases List.mem_append.1 hpart with hletters | hdots
  · obtain ⟨kinds, hkinds, rfl⟩ := List.mem_map.1 hletters
    exact isEntry_letters (h kinds hkinds)
  · split at hdots
    · rw [List.mem_singleton.1 hdots]
      exact ⟨by simp, by simp, by simp [Text.isBlank, Text.blankRanges]⟩
    · cases hdots

theorem readEntries_parts (signature : Signature) :
    readEntries signature.parts = .ok signature := by
  obtain ⟨kinds, variadic⟩ := signature
  induction kinds with
  | nil => cases variadic <;> rfl
  | cons first others ih =>
    change readEntries (first.letters :: parts ⟨others, variadic⟩) = _
    rw [readEntries, if_neg first.letters_ne_dots, readEntry_letters, ih]
    rfl

theorem ne_empty_of_readEntries {entries : List (List Char)}
    (hentries : ∀ entry ∈ entries, entry ≠ []) (h : readEntries entries = .ok signature) :
    ∀ kinds ∈ signature.kinds, kinds ≠ empty := by
  induction entries generalizing signature with
  | nil =>
    cases h
    exact nofun
  | cons entry more ih =>
    rw [readEntries] at h
    split at h
    · split at h <;> cases h
      exact nofun
    · obtain ⟨first, hfirst, h⟩ := bind_eq_ok.1 h
      obtain ⟨others, hothers, h⟩ := bind_eq_ok.1 h
      cases h
      exact List.forall_mem_cons.2
        ⟨ne_empty_of_readEntry (hentries _ (.head _)) hfirst,
          ih (fun entry hentry => hentries entry (.tail _ hentry)) hothers⟩

theorem read_chars (h : ∀ kinds ∈ signature.kinds, kinds ≠ empty) :
    read (String.ofList signature.chars) = .ok signature := by
  rw [read, String.toList_ofList, chars, Text.entries_intercalate (isEntry_parts h),
    readEntries_parts]

theorem ne_empty_of_read {text : String} (h : read text = .ok signature) :
    ∀ kinds ∈ signature.kinds, kinds ≠ empty :=
  ne_empty_of_readEntries (fun _ => Text.ne_nil_of_mem_entries) h

/-- Signatures without an empty set are what is read from some text, and each is read back from its
written form. -/
theorem read_back :
    (∀ signature : Signature, (∀ kinds ∈ signature.kinds, kinds ≠ empty) →
      read (String.ofList signature.chars) = .ok signature) ∧
    ∀ text signature, read text = .ok signature →
      (∀ kinds ∈ signature.kinds, kinds ≠ empty) ∧
        read (String.ofList signature.chars) = .ok signature :=
  ⟨fun _ h => read_chars h, fun _ _ h => ⟨ne_empty_of_read h, read_chars (ne_empty_of_read h)⟩⟩

/-- Repeated letters, letters out of order, empty entries and blanks are not kept. -/
theorem read_back_untidy :
    let signature : Signature :=
      ⟨[{ integer := true, real := true }, { string := true, absent := true }], true⟩
    String.ofList signature.chars = "ir, sn, ..." ∧
      (∀ kinds ∈ signature.kinds, kinds ≠ empty) ∧ read "ir, sn, ..." = .ok signature ∧
      read "\u3000rir ,, ns,\t... ," = .ok signature := by
  intro signature
  have hchars : String.ofList signature.chars = "ir, sn, ..." := by decide
  have hread : read "\u3000rir ,, ns,\t... ," = .ok signature := by decide
  exact ⟨hchars, (read_back.2 _ _ hread).1, hchars ▸ read_back.1 signature (by decide), hread⟩

end Signature

end Reckoner
