import Reckoner.Proofs.Machine.Elements
import Reckoner.Proofs.Session.Sources

/-!
How many arguments functions of the host are shown. A call shows the values of the arguments that
are written, in their order, and then an absent value for each declared argument that is not. So
there is one for each that is written as long as none of them is brackets around a comma list.
-/

namespace Reckoner

open Machine Program Registry

namespace Program

/-- Without dots at the end of its signature, a function is given no more than it declares. -/
theorem length_le_of_omitted {name : String} {f : Function} {count : Nat} {added : Program}
    (h : omitted name f count = .ok added) (hvariadic : f.signature.variadic = false) :
    count ≤ f.arity := by
  by_contra hle
  have hmore := (Signature.canTake_of_gt (Nat.not_le.1 hle)).1 (omitted_eq_ok.1 h).1
  rw [hvariadic] at hmore
  cases hmore

end Program

theorem Tree.isPlain_of_arguments? {tree : Tree} {trees : List Tree} (hplain : tree.isPlain)
    (h : tree.arguments? = some trees) : ∀ argument ∈ trees, argument.isPlain := by
  unfold Tree.arguments? at h
  split at h
  · cases h
    nofun
  · cases h
    have harguments : (node .arguments trees).isPlain := isPlain_of_mem hplain (by simp)
    exact fun argument hmem => isPlain_of_mem harguments hmem
  · cases h

namespace Machine

/-- In a plain tree an argument leaves one entry. -/
theorem Site.IsWritten.width_eq_one {registry : Registry} {tree : Tree} {site : Site}
    (h : site.IsWritten registry tree) (hplain : tree.isPlain) :
    ∀ arg ∈ site.args, arg.1.width = 1 := by
  intro arg harg
  have hargument := Tree.isPlain_of_arguments? hplain h.arguments arg.1 (List.mem_map_of_mem harg)
  rw [width_of_isPlain (h.emitted arg harg) hargument,
    Tree.elements_of_isList_eq_false (h.single arg harg)]
  rfl

/-- Compiled programs do not matter to what a function declares. -/
theorem IsTyped.of_uncompiled {env : Environment} {f g : Function} {slots : List Slot}
    {args : List Value} (h : IsTyped env g slots args) (hsame : g.uncompiled = f.uncompiled) :
    IsTyped env f slots args := by
  rw [Function.eq_of_uncompiled hsame] at h
  exact ⟨h.length, h.read, h.accepted, h.validated⟩

end Machine

namespace Session

namespace Held

/-- The arguments that a function of the host is shown. Take a program that was compiled from a text
at any time, and an invocation anywhere in a run of it. The call is written in the text or in that
of a registered formula. On the way to it each written argument has left its entries in turn, the
values of these entries are shown in order, converted as the function declares, and the rest are
absent. There are as many arguments as are written, or as are declared if these are more, exactly
when every written argument leaves one entry. They all do when the text has no brackets that
directly hold a comma list; and a function whose signature does not end in dots is called with no
more arguments than it declares. -/
theorem arguments_of_invokes (h : Held) {fuel : Nat} {l : Launch} {c : Config}
    (hmakes : (h.launch fuel).Makes l) (hvisits : l.Visits c) {id : FunctionId}
    {args : List Value} (hinvokes : c.Invokes id args) :
    ∃ (registry : Registry) (root : Tree) (site : Site) (groups : List (List Slot)) (more : Program)
        (below : Stack) (start : State),
      h.IsWritten registry root site ∧ site.function.id = id ∧
      l.Visits ⟨site.code ++ more, below, start⟩ ∧
      Supplies l.runner l.depth site.args start groups c.state ∧
      IsTyped c.state.env site.function
        (groups.flatten ++ List.replicate site.missing (.value .null)) args ∧
      (∀ i arg, groups.flatten.length ≤ i → args[i]? = some arg → arg = .null) ∧
      (args.length = max site.args.length site.function.arity ↔
        ∀ arg ∈ site.args, arg.1.width = 1) ∧
      ((∀ arg ∈ site.args, arg.1.width = 1) →
        ∃ entries : List Slot, entries.length = site.args.length ∧
          groups = entries.map fun slot => [slot]) ∧
      (root.isPlain → ∀ arg ∈ site.args, arg.1.width = 1) ∧
      (site.function.signature.variadic = false → site.args.length ≤ site.function.arity) := by
  have hsound := Launch.isSound_of_visits hvisits
  obtain ⟨g, rfl, @⟨name, target, rest, slots, below, hcall, hsplit, hinvocation⟩⟩ :=
    (invokes_iff hsound).1 hinvokes
  obtain ⟨registry, root, site, hwritten, rfl, rfl, hmet⟩ := exists_site hmakes hvisits hcall
  obtain ⟨part, hpart, hsite⟩ := hwritten.part
  obtain ⟨more, _, start, groups, -, hreaches, hsupplies, hsplit'⟩ :=
    hmet.supplies hsite.emitted
  cases hsplit.symm.trans hsplit'
  have hsame := hwritten.uncompiled_eq (isCurrent_of_visits hmakes hvisits) hinvocation.registered
  have htyped := (isTyped_of_isInvocation hinvocation).of_uncompiled hsame
  have hid : site.function.id = g.id := (Function.id_eq_of_uncompiled hsame).symm
  refine ⟨registry, root, site, groups, more, below, start, hwritten, hid, hreaches, hsupplies,
    htyped, fun i arg hi harg => htyped.eq_null harg hi,
    hsupplies.length_eq_max_iff hsite.emitted htyped, hsupplies.exists_entries hsite.emitted,
    fun hplain => hsite.width_eq_one (Tree.isPlain_of_mem_parts root hplain hpart), ?_⟩
  obtain ⟨added, hadded⟩ := hsite.fitting
  exact length_le_of_omitted hadded

end Held

def withCount (signature : String) : Session :=
  (Session.empty.registerNative "f" signature
    fun _ args => .ok (.integer (Int64.ofNat args.length))).2

/-- Brackets around a comma list are one argument that is written, and two that are shown. -/
example : ((withCount "i").evaluateAll 1 "f((1, 2))").map Prod.fst = some (.ok [.integer 2]) := by
  cbv

theorem exists_invocation_of_count :
    ∃ (h : Held) (c : Config), h.session = withCount "i, in" ∧ h.text = "f(2)" ∧
      (h.launch 0).Visits c ∧ c.Invokes ⟨0⟩ [.integer 2, .null] := by
  have hregistry : (withCount "i, in").env.registry = ⟨[counter], 1⟩ := by cbv
  have hcompiled : ((withCount "i, in").compileText "f(2)").1 =
      .ok [.openCall, .value (.integer 2), .value .null, .call "f" (some ⟨0⟩)] := by cbv
  let h : Held := ⟨withCount "i, in", "f(2)", _, withCount "i, in",
    .step .empty (.native _ _ _ _), .refl, hcompiled⟩
  let c : Config := ⟨[.call "f" (some ⟨0⟩)], [.value .null, .value (.integer 2), .openCall],
    (h.launch 0).start.state⟩
  have hvisits : (h.launch 0).Visits c :=
    ((Relation.ReflTransGen.refl.tail (.openCall _ _ _)).tail (.value _ _ _ _)).tail
      (.value _ _ _ _)
  have hfind : (withCount "i, in").env.registry.find? ⟨0⟩ = some counter := by
    rw [hregistry]
    rfl
  have hread : lookArguments c.state.env counter 0 [.value (.integer 2), .value .null] =
      .ok [.integer 2, .null] := by cbv
  exact ⟨h, c, rfl, rfl, hvisits, (invokes_iff (Launch.isSound_of_visits hvisits)).2
    ⟨counter, rfl, rfl, rfl, ⟨hfind, rfl, hread, rfl⟩⟩⟩

/-- An argument that is left out is shown as absent. -/
theorem arguments_of_count :
    ∃ (h : Held) (c : Config), h.text = "f(2)" ∧ (h.launch 0).Visits c ∧
      c.Invokes ⟨0⟩ [.integer 2, .null] ∧
      ∃ (site : Site) (groups : List (List Slot)) (start : State),
        Supplies (h.launch 0).runner 0 site.args start groups c.state ∧
        (2 = max site.args.length site.function.arity ↔ ∀ arg ∈ site.args, arg.1.width = 1) := by
  obtain ⟨h, c, -, htext, hvisits, hinvokes⟩ := exists_invocation_of_count
  obtain ⟨_, _, site, groups, _, _, start, _, _, _, hsupplies, _, _, hlength, _⟩ :=
    h.arguments_of_invokes .refl hvisits hinvokes
  exact ⟨h, c, htext, hvisits, hinvokes, site, groups, start, hsupplies, hlength⟩

end Session

end Reckoner
