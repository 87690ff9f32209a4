import Reckoner.Proofs.Machine.Arguments
import Reckoner.Proofs.Machine.Steady
import Reckoner.Proofs.Program.Joined
import Reckoner.Proofs.Session.Changes

/-!
Where the code that a session runs comes from. A session holds a program that it compiled from a
text some time ago. Whatever runs in a run of it is the code of a part of that text, or of a part of
the text of a formula, compiled for the functions that are registered now. So each call has a place
where it is written, and the function that was chosen for it there.
-/

namespace Reckoner

theorem Tree.mem_parts_trans {part inner : Tree} :
    (tree : Tree) → part ∈ tree.parts → inner ∈ part.parts → inner ∈ tree.parts
  | leaf token, hpart, hinner => by rwa [mem_parts_leaf.1 hpart] at hinner
  | node rule children, hpart, hinner => by
    rcases mem_parts_node.1 hpart with rfl | ⟨child, hchild, hpart⟩
    · exact hinner
    · exact mem_parts_node.2 (.inr ⟨child, hchild, mem_parts_trans child hpart hinner⟩)

namespace Session

open Machine Program Registry

/-- A program that was compiled by a session, and the session that runs it, any number of steps
later. -/
structure Held where
  first : Session
  text : String
  program : Program
  session : Session
  reachable : Reachable first
  steps : Relation.ReflTransGen Step first session
  compiled : (first.compileText text).1 = .ok program

namespace Held

variable (h : Held)

def registry : Registry := h.session.env.registry.reset

def launch (fuel : Nat) : Launch := ⟨fuel, 0, h.program, h.session.env, []⟩

/-- The texts whose code can run, with the functions that they are compiled for. -/
inductive IsSource : Registry → String → Prop where
  | text : IsSource h.first.env.registry h.text
  | formula {f : Function} {parameters : List String} {body : String}
      (hf : f ∈ h.registry.functions) (hbody : f.body = .formula parameters body) :
      IsSource h.registry body

def IsCode (program : Program) : Prop :=
  ∃ registry source root part, h.IsSource registry source ∧ Tree.IsReadFrom root source ∧
    part ∈ root.parts ∧ Emits registry part program

variable {h}

theorem coherent_first : h.first.env.registry.Coherent := coherent_of_reachable h.reachable

theorem coherent_session : h.session.env.registry.Coherent :=
  coherent_of_reachable (keeps_of_steps h.reachable h.steps).1

theorem coherent_registry : h.registry.Coherent := coherent_reset h.coherent_session

/-- The code of a text. -/
theorem isCode_of_compileText {registry : Registry} {source : String} {program : Program}
    (hsource : h.IsSource registry source)
    (hcompile : Machine.compileText registry source = .ok program) : h.IsCode program := by
  obtain ⟨root, hread, hcode⟩ := compileText_eq_ok.1 hcompile
  obtain ⟨tokens, htokens, hparse⟩ := hread
  exact ⟨registry, source, root, root, hsource, ⟨tokens, htokens, hparse⟩, root.mem_parts_self,
    emits_of_parse hparse hcode⟩

theorem isCode_program : h.IsCode h.program :=
  isCode_of_compileText .text ((compileText_fst h.first h.text).symm.trans h.compiled)

/-- The blocks of the code are code as well. -/
theorem IsCode.hasBlocks {program : Program} (hcode : h.IsCode program) :
    HasBlocks h.IsCode program := by
  obtain ⟨registry, source, root, part, hsource, hread, hpart, hemits⟩ := hcode
  refine (hasBlocks_of_emits hemits).mono fun body ⟨inner, hinner, hbody⟩ => ?_
  exact ⟨registry, source, root, inner, hsource, hread, Tree.mem_parts_trans root hpart hinner,
    hbody⟩

/-- A function that a source is compiled for is the one that is registered under its number, if any
is. -/
theorem IsSource.uncompiled_eq {registry : Registry} {source : String}
    (hsource : h.IsSource registry source) {f g : Function} (hf : f ∈ registry.functions)
    (hg : g ∈ h.registry.functions) (hid : g.id = f.id) : g.uncompiled = f.uncompiled := by
  cases hsource with
  | text =>
    obtain ⟨later, hlater, rfl⟩ := List.mem_map.1 hg
    have hlaterId : later.id = f.id := hid
    have hnumber : later.id.number < h.first.env.registry.next := by
      rw [hlaterId]
      exact h.coherent_first.numbered _ hf
    obtain ⟨f', hf', hsame⟩ := (keeps_of_steps h.reachable h.steps).2.kept later hlater hnumber
    have hsameId : f'.id = f.id := (Function.id_eq_of_uncompiled hsame).trans hlaterId
    rw [h.coherent_first.eq_of_id_eq hf' hf hsameId] at hsame
    exact hsame.symm
  | formula => rw [h.coherent_registry.eq_of_id_eq hg hf hid]

structure IsCurrent (h : Held) (registry : Registry) : Prop where
  coherent : registry.Coherent
  reset : registry.reset = h.registry

theorem isCurrent_session : h.IsCurrent h.session.env.registry := ⟨h.coherent_session, rfl⟩

theorem IsCurrent.find?_eq {registry : Registry} (hcurrent : h.IsCurrent registry)
    {id : FunctionId} {f : Function} (hfind : registry.find? id = some f) :
    h.registry.find? id = some f.uncompiled := by
  rw [← hcurrent.reset, find?_reset, hfind]
  rfl

/-- The text of a formula is a source while the formula is registered. -/
theorem IsCurrent.isSource {registry : Registry} (hcurrent : h.IsCurrent registry) {f : Function}
    (hf : f ∈ registry.functions) {parameters : List String} {body : String}
    (hbody : f.body = .formula parameters body) : h.IsSource h.registry body := by
  refine .formula (f := f.uncompiled) ?_ hbody
  rw [← hcurrent.reset]
  exact List.mem_map_of_mem hf

theorem IsCurrent.compileText_eq {registry : Registry} (hcurrent : h.IsCurrent registry)
    (text : String) : Machine.compileText registry text = Machine.compileText h.registry text :=
  compileText_congr (by rw [hcurrent.reset, Held.registry, reset_reset]) text

/-- What a formula runs is the code of its text, and keeping it changes no function. -/
theorem IsCurrent.formula {registry : Registry} (hcurrent : h.IsCurrent registry) {f : Function}
    (hf : f ∈ registry.functions) {parameters : List String} {body : String}
    (hbody : f.body = .formula parameters body) {depth : Nat} {env : Environment}
    (henv : env.registry = registry) {args : List Value} {program : Program}
    (hprogram : (Inner.formula f parameters body args).program depth env = .ok program) :
    h.IsCode program ∧
      h.IsCurrent ((Inner.formula f parameters body args).enter program env).registry := by
  have htext : Machine.compileText registry body = .ok program := by
    simp only [Inner.program] at hprogram
    split at hprogram
    · cases hprogram
    · cases hcompiled : f.compiled with
      | none =>
        rw [hcompiled, henv] at hprogram
        exact hprogram
      | some kept =>
        rw [hcompiled] at hprogram
        cases hprogram
        obtain ⟨parameters', body', hbody', htext⟩ := hcurrent.coherent.cached f hf _ hcompiled
        cases hbody.symm.trans hbody'
        exact htext
  refine ⟨isCode_of_compileText (hcurrent.isSource hf hbody) (hcurrent.compileText_eq body ▸ htext),
    ?_⟩
  simp only [Inner.enter]
  split
  · rw [henv]
    exact hcurrent
  · rw [henv]
    refine ⟨coherent_setCompiled hcurrent.coherent hf hbody htext, ?_⟩
    rw [reset_setCompiled, hcurrent.reset]

structure IsRun (h : Held) (l : Launch) : Prop where
  code : h.IsCode l.program
  current : h.IsCurrent l.env.registry

theorem registry_of_next? {l : Launch} {c : Config} {half : Turn} {rest : Program} {s : State}
    (hvisits : l.Visits c) (hnext : c.next? = some (.done (half, rest) s)) :
    s.env.registry = c.state.env.registry :=
  (Launch.mayWrite_of_next? (Launch.isSound_of_visits hvisits) hnext).registry_eq

theorem isInvariant_isRun :
    IsInvariant h.IsRun fun _ c => h.IsCurrent c.state.env.registry where
  start hl := hl.current
  ended _ hvisits hc hnext := by
    dsimp only
    rwa [registry_of_next? hvisits hnext]
  nests {l c inner below rest program s fuel} hl hvisits hc hnext hprogram _ := by
    have hsound := Launch.isSound_of_visits hvisits
    have hregistry := registry_of_next? hvisits hnext
    cases inner with
    | branch body =>
      cases hprogram
      have hblocks := Launch.holdsBlocks_of_visits hl.code.hasBlocks hvisits
      exact ⟨(hblocks.pending hsound hnext).2.2 _ rfl, hregistry ▸ hc⟩
    | formula f parameters text args =>
      obtain ⟨name, target, slots, -, -, hfind, hbody, -, -⟩ := call_of_pending hsound hnext
      obtain ⟨id, -, hfind⟩ := Option.bind_eq_some_iff.1 hfind
      obtain ⟨hcode, hcurrent⟩ :=
        hc.formula (List.mem_of_find?_eq_some hfind) hbody hregistry hprogram
      exact ⟨hcode, hcurrent⟩
  refused _ hvisits hc hnext _ := by
    dsimp only
    rwa [registry_of_next? hvisits hnext]
  returned {l c last inner below rest program s fuel execution env journal} _ _ _ _ _ _ hvisits'
      hlast hends := by
    rw [← Launch.env_of_ends hvisits' hends] at hlast
    cases inner <;> exact hlast

theorem isRun_of_makes {fuel : Nat} {l : Launch} (hmakes : (h.launch fuel).Makes l) : h.IsRun l :=
  isInvariant_isRun.of_makes ⟨h.isCode_program, h.isCurrent_session⟩ hmakes

theorem isCurrent_of_visits {fuel : Nat} {l : Launch} {c : Config}
    (hmakes : (h.launch fuel).Makes l) (hvisits : l.Visits c) :
    h.IsCurrent c.state.env.registry :=
  isInvariant_isRun.visits (isRun_of_makes hmakes) hvisits

structure IsWritten (h : Held) (registry : Registry) (root : Tree) (site : Site) : Prop where
  read : ∃ source, h.IsSource registry source ∧ root.IsReadFrom source
  part : ∃ part ∈ root.parts, site.IsWritten registry part

/-- Every call that is come to is written somewhere, and the run has come through its arguments. -/
theorem exists_site {fuel : Nat} {l : Launch} {c : Config} (hmakes : (h.launch fuel).Makes l)
    (hvisits : l.Visits c) {name : String} {target : Option FunctionId} {more : Program}
    (hcall : c.program = .call name target :: more) :
    ∃ registry root site, h.IsWritten registry root site ∧ site.name = name ∧
      target = some site.function.id ∧ site.IsMet l.runner l.depth l.start c := by
  obtain ⟨registry, source, root, part, hsource, hread, hpart, hemits⟩ :=
    (isRun_of_makes hmakes).code
  have hreaches : Reaches l.runner l.depth ⟨l.program ++ [], [], l.start.state⟩ c := by
    rw [List.append_nil]
    exact hvisits
  rcases locates_of_emits hemits hreaches with ⟨stack, s, -, hbehind⟩ | hinside
  · -- Behind the code there is nothing to run.
    rcases Relation.ReflTransGen.cases_head hbehind with rfl | ⟨c', hstep, -⟩
    · cases hcall
    · cases hstep
  · obtain ⟨site, ⟨inner, hinner, hwritten⟩, hmet⟩ := hinside ⟨name, target, more, hcall⟩
    rw [List.append_nil] at hmet
    obtain ⟨more', below, s, hcall', hsite⟩ := hmet
    cases hcall.symm.trans hcall'
    exact ⟨registry, root, site, ⟨⟨source, hsource, hread⟩, inner,
      Tree.mem_parts_trans root hpart hinner, hwritten⟩, rfl, rfl, more, below, s, hcall', hsite⟩

/-- What is registered under the number of the chosen function is that function. -/
theorem IsWritten.uncompiled_eq {registry now : Registry} {root : Tree} {site : Site}
    (hwritten : h.IsWritten registry root site) (hcurrent : h.IsCurrent now) {g : Function}
    (hfind : now.find? site.function.id = some g) :
    g.uncompiled = site.function.uncompiled := by
  obtain ⟨⟨source, hsource, -⟩, inner, -, hsite⟩ := hwritten
  have hid : g.id = site.function.id := by simpa using List.find?_some hfind
  have hg : g.uncompiled ∈ h.registry.functions :=
    List.mem_of_find?_eq_some (hcurrent.find?_eq hfind)
  exact hsource.uncompiled_eq (g := g.uncompiled) (exists_function_of_choose hsite.chosen).1 hg hid

end Held

end Session

end Reckoner
