import Reckoner.Proofs.Token.Written

/-!
Strings between quotes. What may stand in a string is said here without reading it: no quote of its
own sort, unless a backslash stands in front of it. Escaped text never closes its string, so it is
scanned as the string that was escaped, and the closing quote is the last one.
-/

namespace Reckoner.Token

open Text

inductive IsBody (quote : Char) : List Char → Prop where
  | nil : IsBody quote []
  | plain {c : Char} {cs : List Char} (hquote : c ≠ quote) (hescape : c ≠ '\\')
      (h : IsBody quote cs) : IsBody quote (c :: cs)
  | escaped {c : Char} {cs : List Char} (h : IsBody quote cs) : IsBody quote ('\\' :: c :: cs)

variable {quote : Char} {cs body rest : List Char}

/-- A string is read up to the first quote that is not protected. -/
theorem quoted?_eq_some (hquote : quote ≠ '\\') :
    quoted? quote cs = some (body, rest) ↔ IsBody quote body ∧ cs = body ++ quote :: rest := by
  constructor
  · intro h
    refine ⟨?_, eq_append_of_quoted? h⟩
    fun_induction quoted? quote cs generalizing body rest with
    | case1 => cases h
    | case2 c cs ih =>
      obtain ⟨⟨inner, _⟩, hinner, heq⟩ := Option.map_eq_some_iff.1 h
      cases heq
      exact .escaped (ih hinner)
    | case3 cs =>
      cases h
      exact .nil
    | case4 c cs hprotects hne ih =>
      obtain ⟨⟨inner, _⟩, hinner, heq⟩ := Option.map_eq_some_iff.1 h
      cases heq
      exact .plain hne (ne_escape_of_quoted? hprotects hinner) (ih hinner)
  · rintro ⟨hbody, rfl⟩
    induction hbody with
    | nil => rw [List.nil_append, quoted?_cons hquote, if_pos rfl]
    | plain hne hescape _ ih =>
      rw [List.cons_append, quoted?_cons hescape, if_neg hne, ih, Option.map_some]
    | escaped _ ih => rw [List.cons_append, List.cons_append, quoted?, ih, Option.map_some]

/-- Bytes and characters agree that a string is not closed. -/
theorem closing?_eq_none (hquote : quote = '\'' ∨ quote = '"') (h : quoted? quote cs = none) :
    closing? quote.val.toUInt8 (bytes cs) = none := by
  have hsize : quote.utf8Size = 1 := by obtain rfl | rfl := hquote <;> rfl
  have hbyte : quote.val.toUInt8 < 128 := by obtain rfl | rfl := hquote <;> decide
  fun_induction quoted? quote cs with
  | case1 => rfl
  | case2 c cs ih =>
    rw [closing?_escaped hbyte, ih (Option.map_eq_none_iff.1 h), Option.map_none]
  | case3 cs => cases h
  | case4 c cs hprotects hne ih =>
    have hinner := Option.map_eq_none_iff.1 h
    by_cases hescape : c = '\\'
    · -- Only at the end of the text does a backslash protect nothing.
      cases cs with
      | nil => obtain rfl | rfl := hquote <;> subst hescape <;> rfl
      | cons d more => exact absurd rfl (hprotects d more hescape)
    · rw [closing?_char hsize hbyte hescape hne, ih hinner, Option.map_none]

/-- Escaping is undone by decoding, and escaped text between double quotes is one token, the string
that was escaped. Its bytes are closed by the quote behind them, whatever follows. -/
theorem tokenize_encode (s : String) :
    Escape.decode (Escape.encode s.toList) = s.toList ∧
      tokenize (String.ofList ('"' :: (Escape.encode s.toList ++ ['"']))) =
        .ok [⟨.string s, 0⟩] ∧
      ∀ rest, closing? '"'.val.toUInt8 (bytes (Escape.encode s.toList ++ '"' :: rest)) =
        some (byteLength (Escape.encode s.toList) + 1) := by
  refine ⟨Escape.decode_encode s.toList, ?_, fun rest => ?_⟩
  · have hback : Scans false (Kind.string s).chars (.string s) [] := readsBack_string s
    exact tokenize_of_scans rfl rfl hback nofun nofun
  · exact closing?_of_quoted? (.inr rfl) (quoted?_encode s.toList rest)

end Reckoner.Token
