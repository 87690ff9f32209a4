import Reckoner.Proofs.Token.Bytes
import Reckoner.Proofs.Token.Lexing

/-!
A text as the gaps and lexemes that it is split into. Every lexeme is the same token when it stands
alone, so that the text around it has no part in what it says, and every operator is as long as the
text allows. Wherever a lexeme is cut, there is a place between two characters.
-/

namespace Reckoner

namespace Text

theorem isPlace_append (front rest : List Char) : IsPlace (front ++ rest) (byteLength front) := by
  rw [IsPlace, dropBytes_append]
  rfl

/-- A place in a part is a place in the whole. -/
theorem IsPlace.append {part : List Char} {offset : Nat} (h : IsPlace part offset)
    (front rest : List Char) : IsPlace (front ++ (part ++ rest)) (byteLength front + offset) := by
  obtain ⟨behind, hbehind⟩ := Option.isSome_iff_exists.1 h
  obtain ⟨first, rfl, rfl⟩ := dropBytes_eq_some.1 hbehind
  have hplace := isPlace_append (front ++ first) (behind ++ rest)
  rwa [byteLength_append, List.append_assoc, ← List.append_assoc first] at hplace

/-- Between ASCII characters everything is a place. -/
theorem isPlace_of_ascii {cs : List Char} (h : ∀ c ∈ cs, c.utf8Size = 1) {offset : Nat}
    (hle : offset ≤ byteLength cs) : IsPlace cs offset := by
  induction cs generalizing offset with
  | nil =>
    obtain rfl := Nat.le_zero.1 hle
    exact isPlace_append [] []
  | cons c cs ih =>
    obtain ⟨hc, hcs⟩ := List.forall_mem_cons.1 h
    rw [byteLength_cons, hc] at hle
    cases offset with
    | zero => exact isPlace_append [] (c :: cs)
    | succ offset =>
      have hle : offset ≤ byteLength cs := by omega
      have hplace := (ih hcs hle).append [c] []
      rwa [List.append_nil, byteLength_cons, hc, byteLength_nil, Nat.add_comm] at hplace

end Text

namespace Token

open Text

structure Segment where
  gap : List Char
  lexeme : List Char
  kind : Kind

namespace Segment

def chars (s : Segment) : List Char := s.gap ++ s.lexeme

def tokens : Nat → List Segment → List Token
  | _, [] => []
  | position, s :: more =>
    ⟨s.kind, position + byteLength s.gap⟩ :: tokens (position + byteLength s.chars) more

/-- Where the lexeme may be cut, in bytes: behind the first and in front of the last quote of a
string, and anywhere in all else. -/
def IsCut (s : Segment) (offset : Nat) : Prop :=
  match s.kind with
  | .string _ => offset = 1 ∨ offset + 1 = byteLength s.lexeme
  | _ => offset ≤ byteLength s.lexeme

structure IsRead (s : Segment) (behind : List Char) : Prop where
  gap : ∀ c ∈ s.gap, isGap c = true
  starts : ∃ c, s.lexeme.head? = some c ∧ isGap c = false
  alone (hopen : s.kind ≠ .operator .openBracket) (hclose : s.kind ≠ .operator .closeBracket) :
    tokenize (String.ofList s.lexeme) = .ok [⟨s.kind, 0⟩]
  /-- No other operator goes on for longer. -/
  operator (op : Operator) (hop : s.kind = .operator op) :
    s.lexeme = op.chars ∧ ∀ other ∈ Operator.scannable, other.chars <+: s.lexeme ++ behind →
      other.chars <+: op.chars
  /-- The bytes tell where a string ends. -/
  string (content : String) (hcontent : s.kind = .string content) :
    ∃ quote body, s.lexeme = quote :: (body ++ [quote]) ∧ s.kind = ofQuoted quote body ∧
      closing? quote.val.toUInt8 (bytes (body ++ quote :: behind)) = some (byteLength body + 1)
  cut (offset : Nat) (h : s.IsCut offset) : IsPlace s.lexeme offset

end Segment

/-- The longest operator is found. -/
theorem prefix_of_operatorScan {cs rest : List Char} {op other : Operator}
    (h : Operator.scan? cs = some (op, rest)) (hother : other ∈ Operator.scannable)
    (hfront : other.chars <+: cs) : other.chars <+: op.chars := by
  obtain ⟨before, found, after, hlist, hfound, hbefore⟩ := List.findSome?_eq_some_iff.1 h
  obtain ⟨_, hrest, heq⟩ := Option.map_eq_some_iff.1 hfound
  cases heq
  have hcs := rest?_eq_some.1 hrest
  have hordered : Operator.scannable.Pairwise
      fun first second => first.chars <+: second.chars → first.chars = second.chars := by decide
  rw [hlist] at hother hordered
  obtain hmem | hmem := List.mem_append.1 hother
  · have hnone := Option.map_eq_none_iff.1 (hbefore other hmem)
    exact absurd hfront (rest?_eq_none.1 hnone)
  · obtain rfl | hmem := List.mem_cons.1 hmem
    · exact List.prefix_refl _
    · have hle := (List.pairwise_append.1 hordered).2.1
      have hsame := List.rel_of_pairwise_cons hle hmem
      obtain hshort | hlong := List.prefix_or_prefix_of_prefix hfront ⟨rest, hcs.symm⟩
      · exact hshort
      · exact hsame hlong ▸ List.prefix_refl _

theorem utf8Size_of_isGap {c : Char} (h : isGap c = true) : c.utf8Size = 1 := by
  simp only [isGap, Bool.or_eq_true, beq_iff_eq] at h
  obtain (((rfl | rfl) | rfl) | rfl) | rfl := h <;> rfl

theorem utf8Size_of_mem_chars (op : Operator) : ∀ c ∈ op.chars, c.utf8Size = 1 := by
  have hall : op.chars.all fun c => c.utf8Size == 1 := by cases op <;> rfl
  simpa using hall

theorem startsSigned_chars (op : Operator) : Literal.startsSigned op.chars = false := by
  cases op <;> rfl

/-- The lexeme and its closing quote. -/
theorem eq_append_of_quoted? {quote : Char} {cs body rest : List Char}
    (h : quoted? quote cs = some (body, rest)) : cs = body ++ quote :: rest := by
  fun_induction quoted? quote cs generalizing body rest with
  | case1 => cases h
  | case2 c cs ih =>
    obtain ⟨⟨inner, _⟩, hinner, heq⟩ := Option.map_eq_some_iff.1 h
    cases heq
    rw [ih hinner]
    rfl
  | case3 cs =>
    cases h
    rfl
  | case4 c cs _ _ ih =>
    obtain ⟨⟨inner, _⟩, hinner, heq⟩ := Option.map_eq_some_iff.1 h
    cases heq
    rw [ih hinner]
    rfl

namespace Scans

variable {afterOperand : Bool} {cs lexeme rest : List Char} {kind : Kind}

/-- Characters and bytes agree on the lexeme of a string. -/
theorem quoted {content : String} (h : Scans afterOperand (lexeme ++ rest) (.string content) rest) :
    ∃ quote body, quote.utf8Size = 1 ∧ lexeme = quote :: (body ++ [quote]) ∧
      .string content = ofQuoted quote body ∧
      closing? quote.val.toUInt8 (bytes (body ++ quote :: rest)) = some (byteLength body + 1) := by
  generalize hkind : Kind.string content = kind at h
  generalize hcs : lexeme ++ rest = cs at h
  cases h with
  | @string quote cs body _ _ _ _ _ hquote hread =>
    obtain rfl := eq_append_of_quoted? hread
    have hlexeme : lexeme = quote :: (body ++ [quote]) :=
      List.append_cancel_right (hcs.trans (by simp))
    have hsize : quote.utf8Size = 1 := by obtain rfl | rfl := hquote <;> rfl
    exact ⟨quote, body, hsize, hlexeme, rfl, closing?_of_quoted? hquote hread⟩
  | @signed _ _ literal | @literal _ _ literal => cases literal <;> cases hkind
  | operator | name => cases hkind

/-- Names, operators and numbers are ASCII. -/
theorem passes (h : Scans afterOperand cs kind rest) (hkind : ∀ content, kind ≠ .string content) :
    Passes cs rest := by
  cases h with
  | signed _ _ hread => exact passes_literal hread
  | literal _ _ _ hread => exact passes_literal hread
  | operator _ hread =>
    exact ⟨_, Operator.eq_append_of_scan? hread, utf8Size_of_mem_chars _⟩
  | name => exact .dropWhile utf8Size_of_isPart _
  | string => exact absurd rfl (hkind _)

theorem startsSigned_eq_false (h : Scans true lexeme kind []) :
    Literal.startsSigned lexeme = false := by
  generalize hrest : ([] : List Char) = rest at h
  cases h with
  | signed hflag => cases hflag
  | operator _ hread =>
    rw [Operator.eq_append_of_scan? hread, ← hrest, List.append_nil]
    exact startsSigned_chars _
  | literal _ hoperator | name _ hoperator | string _ hoperator =>
    exact Token.startsSigned_eq_false hoperator

theorem of_startsSigned (h : Scans true cs kind rest) (hsigned : Literal.startsSigned cs = false) :
    Scans false cs kind rest := by
  have hflag : (!false && Literal.startsSigned cs) = false := by rw [hsigned, Bool.and_false]
  cases h with
  | signed hflag => cases hflag
  | operator _ hread => exact .operator hflag hread
  | literal _ hoperator hstarts hread => exact .literal hflag hoperator hstarts hread
  | name _ hoperator hliteral hstart => exact .name hflag hoperator hliteral hstart
  | string _ hoperator hliteral hstart hquote hread =>
    exact .string hflag hoperator hliteral hstart hquote hread

/-- The same lexeme is the same token at the start of a text. -/
theorem alone (h : Scans afterOperand (lexeme ++ rest) kind rest) : Scans false lexeme kind [] := by
  obtain ⟨lexeme', -, heq, hreplace⟩ := h.replace
  obtain rfl := List.append_cancel_right heq
  have halone := hreplace [] (.nil rest)
  rw [List.append_nil] at halone
  cases afterOperand with
  | false => exact halone
  | true => exact halone.of_startsSigned halone.startsSigned_eq_false

end Scans

/-- A text of a single token. -/
theorem tokenize_of_scans {lexeme : List Char} {c : Char} {kind : Kind}
    (hhead : lexeme.head? = some c) (hgap : isGap c = false) (h : Scans false lexeme kind [])
    (hopen : kind ≠ .operator .openBracket) (hclose : kind ≠ .operator .closeBracket) :
    tokenize (String.ofList lexeme) = .ok [⟨kind, 0⟩] := by
  obtain ⟨cs, rfl⟩ := List.head?_eq_some_iff.1 hhead
  have hopened : openedAfter [] ⟨kind, 0⟩ = some [] := by
    unfold openedAfter
    split
    · next heq => exact absurd heq hopen
    · next heq => exact absurd heq hclose
    · rfl
  rw [tokenize, String.toList_ofList, scanAll_cons hgap (scan_eq_ok.2 h), hopened]
  simp only [scanAll]
  rfl

namespace Segment

variable {afterOperand : Bool} {gap lexeme rest : List Char} {kind : Kind}

/-- Strings begin and end with a quote, and all else is ASCII. -/
theorem isPlace_of_isCut (h : Scans afterOperand (lexeme ++ rest) kind rest) {offset : Nat}
    (hcut : IsCut ⟨gap, lexeme, kind⟩ offset) : IsPlace lexeme offset := by
  by_cases hstring : ∃ content, kind = .string content
  · obtain ⟨content, rfl⟩ := hstring
    obtain ⟨quote, body, hsize, rfl, -, -⟩ := h.quoted
    obtain rfl | hlast := hcut
    · have hplace := isPlace_append [quote] (body ++ [quote])
      rwa [byteLength_cons, hsize, byteLength_nil] at hplace
    · have hplace := isPlace_append (quote :: body) [quote]
      simp only [byteLength_cons, byteLength_append, byteLength_nil, hsize] at hlast hplace
      rwa [show offset = 1 + byteLength body by omega]
  · have hkind : ∀ content, kind ≠ .string content := fun content heq => hstring ⟨content, heq⟩
    obtain ⟨front, heq, hascii⟩ := h.passes hkind
    obtain rfl := List.append_cancel_right heq
    refine isPlace_of_ascii hascii ?_
    cases kind with
    | string content => exact absurd rfl (hkind content)
    | name | operator | integer | real => exact hcut

theorem isRead {c : Char} (hgaps : ∀ c ∈ gap, isGap c = true) (hhead : lexeme.head? = some c)
    (hgap : isGap c = false) (h : Scans afterOperand (lexeme ++ rest) kind rest) :
    IsRead ⟨gap, lexeme, kind⟩ rest := by
  constructor
  · exact hgaps
  · exact ⟨c, hhead, hgap⟩
  · exact tokenize_of_scans hhead hgap h.alone
  · rintro op rfl
    obtain ⟨-, hread⟩ := h.operator_inv
    refine ⟨List.append_cancel_right (Operator.eq_append_of_scan? hread), fun other hother => ?_⟩
    exact prefix_of_operatorScan hread hother
  · rintro content rfl
    obtain ⟨quote, body, -, hlexeme, hkind, hclosing⟩ := h.quoted
    exact ⟨quote, body, hlexeme, hkind, hclosing⟩
  · exact fun _ => isPlace_of_isCut h

end Segment

/-- The segments and the gap behind them make up the text, and the tokens are theirs. -/
structure Splits (position : Nat) (cs : List Char) (tokens : List Token) (segments : List Segment)
    (trailing : List Char) : Prop where
  text : cs = segments.flatMap Segment.chars ++ trailing
  blank : ∀ c ∈ trailing, isGap c = true
  tokens : tokens = Segment.tokens position segments
  read : ∀ before s after, segments = before ++ s :: after →
    s.IsRead (after.flatMap Segment.chars ++ trailing)

namespace Splits

variable {position : Nat} {cs trailing : List Char} {tokens : List Token} {segments : List Segment}

theorem nil (position : Nat) (h : ∀ c ∈ trailing, isGap c = true) :
    Splits position trailing [] [] trailing := by
  refine ⟨rfl, h, rfl, fun before s after heq => ?_⟩
  cases before <;> cases heq

theorem cons {s : Segment} (hread : s.IsRead cs)
    (h : Splits (position + byteLength s.chars) cs tokens segments trailing) :
    Splits position (s.chars ++ cs) (⟨s.kind, position + byteLength s.gap⟩ :: tokens)
      (s :: segments) trailing := by
  constructor
  · rw [h.text, List.flatMap_cons, List.append_assoc]
  · exact h.blank
  · rw [h.tokens, Segment.tokens]
  · intro before s' after heq
    cases before with
    | nil =>
      cases heq
      exact h.text ▸ hread
    | cons first before =>
      obtain ⟨-, hmore⟩ := List.cons.inj heq
      exact h.read before s' after hmore

/-- A token that is scanned is a segment, with the gap in front of it. -/
theorem token {afterOperand : Bool} {gap tail rest : List Char} {c : Char} {kind : Kind}
    (hgaps : ∀ c ∈ gap, isGap c = true) (hgap : isGap c = false)
    (hscan : scan afterOperand (c :: tail) = .ok (kind, rest))
    (h : Splits (position + byteLength gap + (byteLength (c :: tail) - byteLength rest)) rest tokens
      segments trailing) :
    ∃ s, Splits position (gap ++ c :: tail) (⟨kind, position + byteLength gap⟩ :: tokens)
      (s :: segments) trailing := by
  have hscans := scan_eq_ok.1 hscan
  obtain ⟨lexeme, hne, hlexeme, -⟩ := hscans.replace
  have hfirst : lexeme.head? = some c := by
    rw [← List.head?_append_of_ne_nil _ hne, ← hlexeme]
    rfl
  have hlength : byteLength (c :: tail) - byteLength rest = byteLength lexeme := by
    rw [hlexeme, byteLength_append, Nat.add_sub_cancel]
  rw [hlength, Nat.add_assoc, ← byteLength_append] at h
  have hread := Segment.isRead hgaps hfirst hgap (hlexeme ▸ hscans)
  have hwhole := h.cons hread
  rw [Segment.chars, List.append_assoc, ← hlexeme] at hwhole
  exact ⟨_, hwhole⟩

end Splits

theorem scanAll_gaps {afterOperand : Bool} {opened : List Nat} {position : Nat}
    {gap cs : List Char} (hgap : ∀ c ∈ gap, isGap c = true) :
    scanAll afterOperand opened position (gap ++ cs) =
      scanAll afterOperand opened (position + byteLength gap) cs := by
  induction gap generalizing position with
  | nil => rfl
  | cons c gap ih =>
    obtain ⟨hc, hgap⟩ := List.forall_mem_cons.1 hgap
    rw [List.cons_append, scanAll_gap hc, ih hgap, byteLength_cons, utf8Size_of_isGap hc,
      Nat.add_assoc]

/-- A text that is scanned is split into segments. -/
theorem exists_splits {afterOperand : Bool} {opened : List Nat} {position : Nat} {cs : List Char}
    {tokens : List Token} (h : scanAll afterOperand opened position cs = .ok tokens) :
    ∃ segments trailing, Splits position cs tokens segments trailing := by
  induction hn : cs.length using Nat.strong_induction_on
    generalizing afterOperand opened position cs tokens with
  | _ n ih =>
    have hgaps : ∀ c ∈ cs.takeWhile isGap, isGap c = true := fun c hc => List.mem_takeWhile_imp hc
    rw [← List.takeWhile_append_dropWhile (p := isGap) (l := cs)] at h hn ⊢
    generalize cs.takeWhile isGap = gap at h hn hgaps ⊢
    have hhead := List.head?_dropWhile_not isGap cs
    generalize cs.dropWhile isGap = lexemes at h hn hhead ⊢
    rw [scanAll_gaps hgaps] at h
    cases lexemes with
    | nil =>
      cases opened with
      | nil =>
        rw [scanAll] at h
        cases h
        exact ⟨[], gap, by rw [List.append_nil]; exact .nil position hgaps⟩
      | cons => simp [scanAll] at h
    | cons c tail =>
      have hgap : isGap c = false := by simpa using hhead
      obtain ⟨kind, rest, hscan⟩ := exists_scan_of_scanAll hgap h
      rw [scanAll_cons hgap hscan] at h
      cases hopened : openedAfter opened ⟨kind, position + byteLength gap⟩ with
      | none => simp [hopened] at h
      | some opened' =>
        simp only [hopened] at h
        obtain ⟨tokens', htokens', rfl⟩ := exists_of_map_eq_ok h
        have hlt : rest.length < n := by
          have := length_lt_of_scan hscan
          rw [← hn, List.length_append]
          omega
        obtain ⟨segments, trailing, hsplits⟩ := ih rest.length hlt htokens' rfl
        obtain ⟨s, hwhole⟩ := hsplits.token hgaps hgap hscan
        exact ⟨s :: segments, trailing, hwhole⟩

namespace Segment

theorem mem_tokens {position : Nat} {segments : List Segment} {token : Token}
    (h : token ∈ tokens position segments) :
    ∃ before s after, segments = before ++ s :: after ∧
      token.position = position + byteLength (before.flatMap chars ++ s.gap) := by
  induction segments generalizing position with
  | nil => cases h
  | cons s more ih =>
    rw [tokens] at h
    obtain rfl | h := List.mem_cons.1 h
    · exact ⟨[], s, more, rfl, rfl⟩
    · obtain ⟨before, s', after, rfl, hposition⟩ := ih h
      refine ⟨s :: before, s', after, rfl, ?_⟩
      rw [hposition, List.flatMap_cons, List.append_assoc, byteLength_append s.chars,
        Nat.add_assoc]

theorem pairwise_tokens {segments : List Segment} (h : ∀ s ∈ segments, 0 < byteLength s.lexeme)
    (position : Nat) :
    (tokens position segments).Pairwise fun first second => first.position < second.position := by
  induction segments generalizing position with
  | nil => exact .nil
  | cons s more ih =>
    obtain ⟨hs, hmore⟩ := List.forall_mem_cons.1 h
    refine .cons (fun token htoken => ?_) (ih hmore _)
    obtain ⟨before, s', after, -, hposition⟩ := mem_tokens htoken
    rw [hposition, chars, byteLength_append]
    dsimp only
    omega

end Segment

namespace Splits

variable {text trailing : List Char} {tokens : List Token} {segments : List Segment}

/-- A place in a lexeme, as a place in the text. -/
theorem isPlace (h : Splits 0 text tokens segments trailing) {before after : List Segment}
    {s : Segment} (hs : segments = before ++ s :: after) {offset : Nat}
    (hplace : IsPlace s.lexeme offset) :
    IsPlace text (byteLength (before.flatMap Segment.chars ++ s.gap) + offset) := by
  have hwhole := hplace.append (before.flatMap Segment.chars ++ s.gap)
    (after.flatMap Segment.chars ++ trailing)
  have htext := h.text
  rw [hs, List.flatMap_append, List.flatMap_cons, Segment.chars] at htext
  rw [htext]
  simpa only [List.append_assoc] using hwhole

theorem isPlace_of_mem (h : Splits 0 text tokens segments trailing) {token : Token}
    (htoken : token ∈ tokens) : IsPlace text token.position := by
  rw [h.tokens] at htoken
  obtain ⟨before, s, after, hs, hposition⟩ := Segment.mem_tokens htoken
  rw [hposition, Nat.zero_add]
  exact h.isPlace hs (isPlace_append [] s.lexeme)

theorem pairwise (h : Splits 0 text tokens segments trailing) :
    tokens.Pairwise fun first second => first.position < second.position := by
  rw [h.tokens]
  refine Segment.pairwise_tokens (fun s hs => ?_) 0
  obtain ⟨before, after, hsegments⟩ := List.append_of_mem hs
  obtain ⟨c, hhead, -⟩ := (h.read before s after hsegments).starts
  obtain ⟨cs, hlexeme⟩ := List.head?_eq_some_iff.1 hhead
  rw [hlexeme, byteLength_cons]
  exact Nat.add_pos_left c.utf8Size_pos _

end Splits

def count (op : Operator) (tokens : List Token) : Nat :=
  tokens.countP fun token => token.operator? = some op

theorem count_cons (op : Operator) (token : Token) (tokens : List Token) :
    count op (token :: tokens) = count op tokens + if token.operator? = some op then 1 else 0 := by
  simp only [count, List.countP_cons, decide_eq_true_eq]

/-- The brackets that are open are those that were opened and not closed. -/
theorem count_of_depth {tokens : List Token} {depth depth' : Nat}
    (h : (tokens.map kind).foldlM depthAfter depth = some depth') :
    depth + count .openBracket tokens = depth' + count .closeBracket tokens := by
  induction tokens generalizing depth with
  | nil => simpa [count] using h
  | cons token more ih =>
    rw [List.map_cons, List.foldlM_cons] at h
    obtain ⟨middle, hmiddle, hmore⟩ := Option.bind_eq_some_iff.1 h
    have hrest := ih hmore
    rw [count_cons, count_cons]
    unfold depthAfter at hmiddle
    split at hmiddle
    · next heq =>
      simp only [operator?, heq, Kind.operator?, Option.some.injEq, reduceCtorEq, if_true,
        if_false] at hmiddle ⊢
      omega
    · next heq =>
      split at hmiddle
      · cases hmiddle
      · simp only [operator?, heq, Kind.operator?, Option.some.injEq, reduceCtorEq, if_true,
          if_false] at hmiddle ⊢
        omega
    · next hopen hclose =>
      have hop (op : Operator) (hne : token.kind ≠ .operator op) : token.operator? ≠ some op := by
        intro heq
        obtain ⟨kind, position⟩ := token
        cases kind <;> cases heq
        exact hne rfl
      rw [if_neg (hop _ hopen), if_neg (hop _ hclose)]
      cases hmiddle
      exact hrest

/-- What a text is split into. Gaps and lexemes take turns, each lexeme at the position of its
token, and each is the same token when it stands alone; positions go up from character to character,
and nothing is cut in between; brackets are in pairs. -/
theorem splits_of_tokenize {text : String} {tokens : List Token} (h : tokenize text = .ok tokens) :
    (∃ segments trailing, Splits 0 text.toList tokens segments trailing ∧
      ∀ before s after, segments = before ++ s :: after → ∀ offset, s.IsCut offset →
        IsPlace text.toList (byteLength (before.flatMap Segment.chars ++ s.gap) + offset)) ∧
    tokens.Pairwise (fun first second => first.position < second.position) ∧
    (∀ token ∈ tokens, IsPlace text.toList token.position) ∧
    (∀ front, front <+: tokens → count .closeBracket front ≤ count .openBracket front) ∧
    count .closeBracket tokens = count .openBracket tokens := by
  obtain ⟨segments, trailing, hsplits⟩ := exists_splits h
  obtain ⟨-, hdepth⟩ := lexes_of_tokenize h
  have hall := count_of_depth hdepth
  rw [Nat.zero_add, Nat.zero_add] at hall
  refine ⟨⟨segments, trailing, hsplits, fun before s after hs offset hcut => ?_⟩,
    hsplits.pairwise, fun token => hsplits.isPlace_of_mem, ?_, hall.symm⟩
  · exact hsplits.isPlace hs ((hsplits.read before s after hs).cut offset hcut)
  · rintro front ⟨back, rfl⟩
    rw [List.map_append, List.foldlM_append] at hdepth
    obtain ⟨depth, hfront, -⟩ := Option.bind_eq_some_iff.1 hdepth
    have hcount := count_of_depth hfront
    omega

/-- A backslash in front of a character of two bytes, between brackets. -/
theorem splits_of_escaped :
    tokenize "(\"\\é\" , -5)" = .ok [⟨.operator .openBracket, 0⟩, ⟨.string "\\é", 1⟩,
      ⟨.operator .comma, 7⟩, ⟨.integer (-5), 9⟩, ⟨.operator .closeBracket, 11⟩] ∧
    ∃ segments trailing, Splits 0 "(\"\\é\" , -5)".toList [⟨.operator .openBracket, 0⟩,
      ⟨.string "\\é", 1⟩, ⟨.operator .comma, 7⟩, ⟨.integer (-5), 9⟩,
      ⟨.operator .closeBracket, 11⟩] segments trailing := by
  have htokens : tokenize "(\"\\é\" , -5)" = .ok [⟨.operator .openBracket, 0⟩,
      ⟨.string "\\é", 1⟩, ⟨.operator .comma, 7⟩, ⟨.integer (-5), 9⟩,
      ⟨.operator .closeBracket, 11⟩] := by cbv
  obtain ⟨⟨segments, trailing, hsplits, -⟩, -⟩ := splits_of_tokenize htokens
  exact ⟨htokens, segments, trailing, hsplits⟩

end Token

end Reckoner
