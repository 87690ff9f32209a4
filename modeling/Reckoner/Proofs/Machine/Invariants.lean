import Reckoner.Proofs.Machine.Launches

/-!
What holds at every moment of a run and of all runs within it. The invariant of a moment is kept by
each step, and hands the condition on its start to whatever is nested there; a nested run gives the
invariant of its last moment back.
-/

namespace Reckoner.Machine

structure IsInvariant (J : Launch → Prop) (I : Launch → Config → Prop) : Prop where
  start {l : Launch} (hl : J l) : I l l.start
  ended {l : Launch} {c : Config} {after : Stack} {rest : Program} {s : State} (hl : J l)
    (hvisits : l.Visits c) (hc : I l c) (hnext : c.next? = some (.done (.ended after, rest) s)) :
    I l ⟨rest, after, s⟩
  nests {l : Launch} {c : Config} {inner : Inner} {below : Stack} {rest program : Program}
    {s : State} {fuel : Nat} (hl : J l) (hvisits : l.Visits c) (hc : I l c)
    (hnext : c.next? = some (.done (.pending inner below, rest) s))
    (hprogram : inner.program l.depth s.env = .ok program) (hfuel : l.fuel = fuel + 1) :
    J (inner.launch fuel l.depth program s)
  refused {l : Launch} {c : Config} {inner : Inner} {below : Stack} {rest : Program} {s : State}
    {e : Error} (hl : J l) (hvisits : l.Visits c) (hc : I l c)
    (hnext : c.next? = some (.done (.pending inner below, rest) s))
    (hprogram : inner.program l.depth s.env = .error e) :
    I l ⟨rest, .failed :: below, { s with failure := s.failure.set e }⟩
  /-- What was nested has ended in a moment with the invariant. -/
  returned {l : Launch} {c last : Config} {inner : Inner} {below : Stack}
    {rest program : Program} {s : State} {fuel : Nat} {execution : Execution} {env : Environment}
    {journal : List Event} (hl : J l) (hvisits : l.Visits c) (hc : I l c)
    (hnext : c.next? = some (.done (.pending inner below, rest) s))
    (hprogram : inner.program l.depth s.env = .ok program) (hfuel : l.fuel = fuel + 1)
    (hvisits' : (inner.launch fuel l.depth program s).Visits last)
    (hlast : I (inner.launch fuel l.depth program s) last)
    (hends : Launch.Ends last execution env journal) :
    I l ⟨rest, .ofResult execution.last :: below,
      ⟨inner.leave env, inner.closing journal, s.failure.after execution.last⟩⟩

namespace IsInvariant

variable {J : Launch → Prop} {I : Launch → Config → Prop} {l l' : Launch} {c : Config}

/-- The induction is on fuel, since a step can be as long as a whole nested run. -/
theorem visits (h : IsInvariant J I) (hl : J l) (hvisits : l.Visits c) : I l c := by
  induction hfuel : l.fuel using Nat.strongRecOn generalizing l c with
  | ind fuel ih =>
    refine hvisits.induct (P := I l) (h.start hl) fun c c' hvisits hc hmove => ?_
    cases hmove with
    | ended hnext => exact h.ended hl hvisits hc hnext
    | refused hnext hprogram => exact h.refused hl hvisits hc hnext hprogram
    | @returned inner _ _ s program fuel' _ _ _ hnext hprogram hfuel' hresult =>
      have hinner := h.nests hl hvisits hc hnext hprogram hfuel'
      obtain ⟨last, hvisits', hends⟩ := Launch.result_iff.1 hresult
      have hless : fuel' < fuel := by rw [← hfuel, hfuel']; exact Nat.lt_succ_self fuel'
      have hlast := ih fuel' hless hinner hvisits' rfl
      exact h.returned hl hvisits hc hnext hprogram hfuel' hvisits' hlast hends

theorem of_nests (h : IsInvariant J I) (hl : J l) (hnests : l.Nests l') : J l' := by
  obtain ⟨hvisits, hnext, hprogram, hfuel⟩ := hnests
  exact h.nests hl hvisits (h.visits hl hvisits) hnext hprogram hfuel

theorem of_makes (h : IsInvariant J I) (hl : J l) (hmakes : l.Makes l') : J l' := by
  induction hmakes with
  | refl => exact hl
  | tail _ hnests ih => exact h.of_nests ih hnests

end IsInvariant

end Reckoner.Machine
