import Reckoner.Proofs.Function.Registration
import Reckoner.Proofs.Text.Entries
import Reckoner.Proofs.Token.Bytes
import Reckoner.Proofs.Token.Lexing
import Reckoner.Session.Basic

/-!
Written definitions. Names hold no bracket, no comma and no blank, so the first opening bracket of a
written formula ends its name and the next closing one its parameters, whatever the text of the
formula holds. Behind the sign there is one blank, so that a text beginning with a sign of its own
is not taken for the equality, and the text is trimmed already. So a formula is defined again by its
written form.
-/

namespace Reckoner

open Text (IsEntry)
open Registry (IsName)
open Reckoner.Function (uncompiled)
open Program (bind_eq_ok)

namespace Name

variable {name : String} {c : Char}

theorem isBlank_of_isPart (h : isPart c = true) : Text.isBlank c = false := by
  have hrange := Token.toNat_of_isPart c h
  exact Text.isBlank_eq_false (by omega) (by omega)

theorem forall_isPart (h : isValid name = true) : ∀ c ∈ name.toList, isPart c = true := by
  unfold isValid at h
  split at h
  · cases h
  · next first rest hname =>
    rw [hname]
    rw [Bool.and_eq_true, List.all_eq_true] at h
    exact List.forall_mem_cons.2 ⟨Token.isPart_of_isStart h.1, h.2⟩

/-- A bracket or a comma is in no name. -/
theorem not_mem_of_isValid (h : isValid name = true) (hc : c.toNat < 48) : c ∉ name.toList :=
  fun hmem => Nat.not_lt.2 (Token.toNat_of_isPart c (forall_isPart h c hmem)).1 hc

theorem isEntry_of_isValid (h : isValid name = true) : IsEntry name.toList where
  ne_nil hnil := by simp [isValid, hnil] at h
  ne_comma _ hc hcomma := not_mem_of_isValid h (by decide) (hcomma ▸ hc)
  ne_blank c hc := isBlank_of_isPart (forall_isPart h c hc)

end Name

namespace Definition

variable {d : Definition}

def IsValid (d : Definition) : Prop :=
  IsName d.name ∧ ∀ parameter ∈ d.parameters, IsName parameter

def trimmed (d : Definition) : Definition :=
  { d with body := String.ofList (Text.trim d.body.toList) }

def formula (d : Definition) (number : Nat) : Function :=
  ⟨⟨number⟩, d.name, .formula d.parameters d.trimmed.body,
    ⟨List.replicate d.parameters.length Kinds.any, false⟩, false, none⟩

theorem trim_trimmed (d : Definition) :
    Text.trim d.trimmed.body.toList = d.trimmed.body.toList := by
  simp only [trimmed, String.toList_ofList, Text.trim_trim]

theorem trimmed_trimmed (d : Definition) : d.trimmed.trimmed = d.trimmed := by
  rw [trimmed, trim_trimmed, String.ofList_toList]

theorem formula_trimmed (d : Definition) (number : Nat) :
    d.trimmed.formula number = d.formula number := by
  simp only [formula, trimmed_trimmed]
  rfl

/-- The first occurrence of a sign ends what is in front of it. -/
theorem span_append {c : Char} {front : List Char} (h : c ∉ front) (rest : List Char) :
    (front ++ c :: rest).takeWhile (· != c) = front ∧
      (front ++ c :: rest).dropWhile (· != c) = c :: rest := by
  have hfront : ∀ other ∈ front, (other != c) = true :=
    fun other hother => bne_iff_ne.2 fun heq => h (heq ▸ hother)
  rw [List.takeWhile_append_of_pos hfront, List.dropWhile_append_of_pos hfront]
  simp

theorem chars_formula (d : Definition) (number : Nat) :
    (d.formula number).chars = d.name.toList ++ '(' ::
      (List.intercalate [',', ' '] (d.parameters.map String.toList) ++
        ')' :: '=' :: ' ' :: d.trimmed.body.toList) := by
  simp [Function.chars, formula]

/-- The text behind the sign may hold anything, brackets and signs included. -/
theorem read_append {name inside : List Char} (hname : '(' ∉ name) (hinside : ')' ∉ inside)
    (body : List Char) :
    read (String.ofList (name ++ '(' :: (inside ++ ')' :: '=' :: ' ' :: body))) =
      some
        { name := String.ofList (Text.trim name)
          parameters := (Text.entries inside).map String.ofList
          body := String.ofList (Text.trim body) } := by
  obtain ⟨hfront, hopen⟩ := span_append hname (inside ++ ')' :: '=' :: ' ' :: body)
  obtain ⟨hlist, hclose⟩ := span_append hinside ('=' :: ' ' :: body)
  have hsign : Text.trimStart ('=' :: ' ' :: body) = '=' :: ' ' :: body :=
    List.dropWhile_cons_of_neg (by decide)
  simp only [read, String.toList_ofList, hfront, hopen, hlist, hclose, hsign]
  rw [if_neg (by simp), Text.trim_cons rfl]

theorem read_formula (h : d.IsValid) (number : Nat) :
    read (d.formula number).text = some d.trimmed := by
  obtain ⟨⟨hname, -⟩, hparameters⟩ := h
  have hentries : ∀ part ∈ d.parameters.map String.toList, IsEntry part :=
    List.forall_mem_map.2 fun parameter hparameter =>
      Name.isEntry_of_isValid (hparameters parameter hparameter).1
  have hclose : ')' ∉ List.intercalate [',', ' '] (d.parameters.map String.toList) :=
    Text.not_mem_intercalate (by decide) <| List.forall_mem_map.2 fun parameter hparameter =>
      Name.not_mem_of_isValid (hparameters parameter hparameter).1 (by decide)
  rw [Function.text, chars_formula, read_append (Name.not_mem_of_isValid hname (by decide)) hclose,
    Text.trim_of_forall (Name.isEntry_of_isValid hname).ne_blank, Text.entries_intercalate hentries,
    trim_trimmed, List.map_map]
  simp [Function.comp_def, trimmed]

end Definition

namespace Registry

theorem mapM_check_eq_ok {names names' : List String} :
    names.mapM Name.check = .ok names' ↔ (∀ name ∈ names, IsName name) ∧ names = names' := by
  induction names generalizing names' with
  | nil => simp [pure, Except.pure]
  | cons name more ih =>
    rw [List.mapM_cons, bind_eq_ok]
    simp only [bind_eq_ok, check_eq_ok, ih, List.forall_mem_cons]
    constructor
    · rintro ⟨_, ⟨hname, rfl⟩, _, ⟨hmore, rfl⟩, ⟨⟩⟩
      exact ⟨⟨hname, hmore⟩, rfl⟩
    · rintro ⟨⟨hname, hmore⟩, rfl⟩
      exact ⟨_, ⟨hname, rfl⟩, _, ⟨hmore, rfl⟩, rfl⟩

/-- A formula is refused for its names only. -/
theorem addFormula_eq_ok {r : Registry} {d : Definition} {added : Function × Registry} :
    r.addFormula d.name d.parameters d.body = .ok added ↔
      d.IsValid ∧ added = r.insert d.name (.formula d.parameters d.trimmed.body)
        ⟨List.replicate d.parameters.length Kinds.any, false⟩ false false := by
  simp only [addFormula, bind_eq_ok, mapM_check_eq_ok, checkFunction_eq_ok]
  constructor
  · rintro ⟨_, ⟨hparameters, rfl⟩, _, ⟨hname, rfl⟩, ⟨⟩⟩
    exact ⟨⟨hname, hparameters⟩, rfl⟩
  · rintro ⟨⟨hname, hparameters⟩, rfl⟩
    exact ⟨_, ⟨hparameters, rfl⟩, _, ⟨hname, rfl⟩, rfl⟩

end Registry

namespace Session

variable {s t : Session} {text : String} {f : Function} {d : Definition}

/-- Defining the text registers the function, in the place of all others of its name. The compiled
programs go, and nothing outside the registry changes. -/
structure Defines (s : Session) (text : String) (f : Function) (t : Session) : Prop where
  accepted : s.define text = (.ok (), t)
  functions : t.env.registry.functions =
    ((s.env.registry.functions.map uncompiled).filter fun g => g.name != f.name) ++ [f]
  others : t = s.withRegistry t.env.registry

theorem exists_defines (hread : Definition.read text = some d) (h : d.IsValid) (s : Session) :
    ∃ t, s.Defines text (d.formula s.env.registry.next) t := by
  have hadd := (Registry.addFormula_eq_ok (r := s.env.registry)).2 ⟨h, rfl⟩
  have hdefine : s.define text = (.ok (), s.withRegistry (s.env.registry.insert d.name
      (.formula d.parameters d.trimmed.body)
      ⟨List.replicate d.parameters.length Kinds.any, false⟩ false false).2) := by
    simp only [define, hread, registerFormula, hadd, changing]
  exact ⟨_, hdefine, Registry.functions_insert .., rfl⟩

theorem isValid_of_define (h : s.define text = (.ok (), t)) :
    ∃ d, Definition.read text = some d ∧ d.IsValid := by
  unfold define at h
  cases hread : Definition.read text with
  | none => simp [hread, changing] at h
  | some d =>
    cases hadd : s.env.registry.addFormula d.name d.parameters d.body with
    | error e => simp [hread, registerFormula, hadd, changing] at h
    | ok added => exact ⟨d, rfl, (Registry.addFormula_eq_ok.1 hadd).1⟩

/-- The written form of a formula is a definition of it in every session. -/
theorem exists_defines_text (h : d.IsValid) (number : Nat) (s : Session) :
    ∃ t, s.Defines (d.formula number).text (d.formula s.env.registry.next) t := by
  have hagain := exists_defines (Definition.read_formula h number) h s
  rwa [Definition.formula_trimmed] at hagain

/-- A formula that was accepted is defined by its written form, and what any definition made is
written in the same way when it is defined again. -/
theorem formula_defined_again (s : Session) :
    (∀ (r r' : Registry) (f : Function) (name : String) (parameters : List String) (text : String),
      r.addFormula name parameters text = .ok (f, r') →
        f.name = name ∧ f.body = .formula parameters (String.ofList (Text.trim text.toList)) ∧
          ∃ g t, s.Defines f.text g t ∧ g.name = f.name ∧ g.body = f.body) ∧
    ∀ text t, s.define text = (.ok (), t) →
      ∃ f, s.Defines text f t ∧
        ∀ s' : Session, ∃ g t', s'.Defines f.text g t' ∧ g.text = f.text := by
  constructor
  · intro r r' f name parameters text hadd
    obtain ⟨hvalid, hinsert⟩ := Registry.addFormula_eq_ok (d := ⟨name, parameters, text⟩).1 hadd
    obtain ⟨rfl, -⟩ := Prod.mk.inj hinsert
    obtain ⟨t, hdefines⟩ := exists_defines_text hvalid r.next s
    exact ⟨rfl, rfl, _, t, hdefines, rfl, rfl⟩
  · intro text t hdefine
    obtain ⟨d, hread, hvalid⟩ := isValid_of_define hdefine
    obtain ⟨t', hdefines⟩ := exists_defines hread hvalid s
    obtain rfl : t' = t := (Prod.mk.inj (hdefines.accepted.symm.trans hdefine)).2
    refine ⟨_, hdefines, fun s' => ?_⟩
    obtain ⟨t'', hagain⟩ := exists_defines_text hvalid s.env.registry.next s'
    exact ⟨_, t'', hagain, rfl⟩

/-- A text that begins with a sign and closes a bracket it did not open, and a definition with
blanks and an empty entry. -/
theorem formula_with_brackets_defined_again :
    (∃ f r', Registry.empty.addFormula "f" ["x", "y"] "\u3000= x) == (y, " = .ok (f, r') ∧
      f.text = "f(x, y)= = x) == (y," ∧
      ∃ g t, Session.new.Defines f.text g t ∧ g.name = f.name ∧ g.body = f.body) ∧
    ∃ t, Session.new.define " abs ( x ,,\ty)\n= x * y " = (.ok (), t) ∧
      ∃ f, Session.new.Defines " abs ( x ,,\ty)\n= x * y " f t ∧
        ∃ g t', t.Defines f.text g t' ∧ g.text = f.text := by
  constructor
  · have hadd : Registry.empty.addFormula "f" ["x", "y"] "\u3000= x) == (y, " = .ok (_, _) := rfl
    exact ⟨_, _, hadd, by decide, ((formula_defined_again .new).1 _ _ _ _ _ _ hadd).2.2⟩
  · have hdefine : Session.new.define " abs ( x ,,\ty)\n= x * y " = (.ok (), _) := rfl
    obtain ⟨f, hf, hagain⟩ := (formula_defined_again .new).2 _ _ hdefine
    exact ⟨_, hdefine, f, hf, hagain _⟩

end Session

end Reckoner
