import Reckoner.Proofs.Session.Lists
import Reckoner.Proofs.Session.Sources

/-!
What the calls of a held program call. The function that was chosen when the code of the call was
compiled is called while it is registered, and nothing is called when it is not. Another function,
even one registered under the same name with the same definition, has another number and is never
called in its place.
-/

namespace Reckoner

open Machine Program Registry

namespace Machine

/-- The call is one of this function, as it is registered now: the arguments are read and converted
for it, and it is what is invoked or entered. -/
inductive Config.Calls (c : Config) (f : Function) : Prop where
  | intro {g : Function} {more : Program} {slots : List Slot} {below : Stack}
      {journal : List Event} {given : Except Error Given}
      (hfind : c.state.env.registry.find? f.id = some g) (hsame : g.uncompiled = f.uncompiled)
      (hsplit : splitCall [] c.stack = some (slots, below))
      (hgiven : given = lookArguments c.state.env g 0 slots >>= applyResult c.state.env g)
      (hnext : c.next? = some (.done (.ofGiven below given, more)
        ⟨c.state.env, journal, c.state.failure.after given⟩))
      (hinvokes : ∀ id args, c.Invokes id args → id = f.id)

def Config.Misses (c : Config) (name : String) : Prop :=
  ∃ more slots below, splitCall [] c.stack = some (slots, below) ∧
    c.next? = some (.done (.ended (.failed :: below), more)
      { c.state with failure := c.state.failure.set (.unknownFunction name) })

variable {c : Config} {name : String} {id : FunctionId} {more : Program} {slots : List Slot}
  {below : Stack}

/-- A call of a number that is registered. -/
theorem Config.calls_of_find? (hsound : c.IsSound)
    (hcall : c.program = .call name (some id) :: more)
    (hsplit : splitCall [] c.stack = some (slots, below)) {f g : Function} (hid : f.id = id)
    (hfind : c.state.env.registry.find? id = some g) (hsame : g.uncompiled = f.uncompiled) :
    c.Calls f := by
  have hresult : callResult c.state.env name (some id) slots =
      lookArguments c.state.env g 0 slots >>= applyResult c.state.env g := by
    simp only [callResult, Option.bind_some, hfind]
  obtain ⟨journal, hturn⟩ := reads_callTurn name (some id) hsplit hsound
  rw [hresult] at hturn
  have hnext : c.next? = some (turn (.call name (some id)) more c.stack c.state) := by
    rw [Config.next?, hcall]
  rw [turn, bind_eq, hturn] at hnext
  refine .intro (hid ▸ hfind) hsame hsplit rfl hnext fun id' args hinvokes => ?_
  obtain ⟨f', rfl, hcall', -, hinvocation⟩ := (invokes_iff hsound).1 hinvokes
  cases hcall.symm.trans hcall'
  have hfound := hinvocation.registered
  rw [Option.bind_some, hfind] at hfound
  cases hfound
  rw [hid]
  simpa using List.find?_some hfind

/-- A call of a number that is not. -/
theorem Config.misses_of_find? (hcall : c.program = .call name (some id) :: more)
    (hsplit : splitCall [] c.stack = some (slots, below))
    (hfind : c.state.env.registry.find? id = none) : c.Misses name := by
  refine ⟨more, slots, below, hsplit, ?_⟩
  simp only [Config.next?, hcall, turn, callTurn, hsplit, bind_eq, environment, Option.bind_some,
    hfind, fail, report, pure_eq]

end Machine

namespace Session

namespace Held

/-- A held program never calls a substitute. Take a program that was compiled from a text, and run
it after any number of registrations, removals, resets and other steps of its host. Each call that
the run comes to, at any level, is written in the text or in the text of a formula that is
registered now, and a function was chosen for it among those that were registered for its text.
Either this very function still is registered, and it is what is called, or it is not, and the call
fails as one of an unknown function and does nothing else. While the functions are those of before,
running the program is the same as evaluating its text. -/
theorem calls_of_visits (h : Held) :
    (∀ fuel l c, (h.launch fuel).Makes l → l.Visits c →
      ∀ name target more, c.program = .call name target :: more →
        ∃ registry root site, h.IsWritten registry root site ∧ site.name = name ∧
          target = some site.function.id ∧
          (site.function.uncompiled ∈ h.registry.functions ∧ c.Calls site.function ∨
            (∀ g ∈ h.registry.functions, g.id ≠ site.function.id) ∧ c.Misses name)) ∧
      (h.registry = h.first.env.registry.reset →
        ∀ fuel, h.session.executeAll fuel h.program = h.session.evaluateAll fuel h.text ∧
          h.session.execute fuel h.program = h.session.evaluate fuel h.text) := by
  refine ⟨fun fuel l c hmakes hvisits name target more hcall => ?_, fun hsame fuel => ?_⟩
  · obtain ⟨registry, root, site, hwritten, rfl, rfl, hmet⟩ := exists_site hmakes hvisits hcall
    obtain ⟨part, -, hsite⟩ := hwritten.part
    obtain ⟨_, below, _, groups, -, -, -, hsplit⟩ := hmet.supplies hsite.emitted
    have hcurrent := isCurrent_of_visits hmakes hvisits
    refine ⟨registry, root, site, hwritten, rfl, rfl, ?_⟩
    cases hfind : c.state.env.registry.find? site.function.id with
    | some g =>
      have huncompiled := hwritten.uncompiled_eq hcurrent hfind
      have hregistered := List.mem_of_find?_eq_some (hcurrent.find?_eq hfind)
      refine .inl ⟨huncompiled ▸ hregistered, ?_⟩
      exact Config.calls_of_find? (Launch.isSound_of_visits hvisits) hcall hsplit rfl hfind
        huncompiled
    | none =>
      refine .inr ⟨fun g hg hid => ?_, Config.misses_of_find? hcall hsplit hfind⟩
      rw [← hcurrent.reset] at hg
      obtain ⟨f, hf, rfl⟩ := List.mem_map.1 hg
      have hother := List.find?_eq_none.1 hfind f hf
      exact hother (by simpa using hid)
  · have htext : Machine.compileText h.session.env.registry h.text = .ok h.program := by
      rw [compileText_congr hsame, ← compileText_fst]
      exact h.compiled
    simp only [evaluateAll, evaluate, compileText_of_eq_ok htext, and_self]

end Held

/-- A formula that is defined again in the same way is another function. -/
theorem calls_of_redefined :
    ∃ (h : Held) (c : Config), h.first = (Session.empty.define "f(x) = x + 1").2 ∧
      h.text = "f(1)" ∧ h.session = (h.first.define "f(x) = x + 1").2 ∧
      (h.launch 0).Visits c ∧ c.Misses "f" := by
  have hcompiled : ((Session.empty.define "f(x) = x + 1").2.compileText "f(1)").1 =
      .ok [.openCall, .value (.integer 1), .call "f" (some ⟨0⟩)] := by cbv
  let h : Held := ⟨(Session.empty.define "f(x) = x + 1").2, "f(1)", _,
    ((Session.empty.define "f(x) = x + 1").2.define "f(x) = x + 1").2,
    .step .empty (.define _ _), .single (.define _ _), hcompiled⟩
  let c : Config := ⟨[.call "f" (some ⟨0⟩)], [.value (.integer 1), .openCall],
    (h.launch 0).start.state⟩
  have hvisits : (h.launch 0).Visits c :=
    (Relation.ReflTransGen.refl.tail (.openCall _ _ _)).tail (.value _ _ _ _)
  have hids : h.registry.functions.map Function.id = [⟨1⟩] := by cbv
  obtain ⟨_, _, site, _, _, htarget, hcalls⟩ :=
    h.calls_of_visits.1 0 _ c .refl hvisits "f" (some ⟨0⟩) [] rfl
  refine ⟨h, c, rfl, rfl, rfl, hvisits, ?_⟩
  rcases hcalls with ⟨hregistered, -⟩ | ⟨-, hmisses⟩
  · have hmem : site.function.uncompiled.id ∈ h.registry.functions.map Function.id :=
      List.mem_map_of_mem hregistered
    rw [hids, Function.uncompiled, ← Option.some.inj htarget] at hmem
    cases List.mem_singleton.1 hmem
  · exact hmisses

end Session

end Reckoner
