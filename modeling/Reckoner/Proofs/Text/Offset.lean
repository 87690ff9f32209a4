import Reckoner.Text.Offset

/-!
Places in a text: the bytes in front of a place make up whole characters.
-/

namespace Reckoner.Text

def IsPlace (text : List Char) (position : Nat) : Prop := (dropBytes position text).isSome

theorem dropBytes_zero (cs : List Char) : dropBytes 0 cs = some cs := by rw [dropBytes]

theorem dropBytes_append (front rest : List Char) :
    dropBytes (byteLength front) (front ++ rest) = some rest := by
  induction front with
  | nil => exact dropBytes_zero rest
  | cons c front ih =>
    obtain ⟨n, hn⟩ := Nat.exists_eq_succ_of_ne_zero (Nat.ne_of_gt c.utf8Size_pos)
    rw [List.cons_append, byteLength_cons, hn, Nat.succ_add, dropBytes, hn,
      if_pos (by omega), show n + byteLength front + 1 - n.succ = byteLength front by omega, ih]

theorem dropBytes_eq_some {position : Nat} {text rest : List Char} :
    dropBytes position text = some rest ↔
      ∃ front, text = front ++ rest ∧ byteLength front = position := by
  constructor
  · intro h
    fun_induction dropBytes position text with
    | case1 cs =>
      obtain rfl := Option.some.inj h
      exact ⟨[], rfl, rfl⟩
    | case2 => cases h
    | case3 n c cs hle ih =>
      obtain ⟨front, rfl, hfront⟩ := ih h
      refine ⟨c :: front, rfl, ?_⟩
      rw [byteLength_cons, hfront]
      omega
    | case4 => cases h
  · rintro ⟨front, rfl, rfl⟩
    exact dropBytes_append front rest

theorem takeBytes_append (front rest : List Char) :
    takeBytes (byteLength front) (front ++ rest) = front := by
  induction front with
  | nil => rw [byteLength_nil, takeBytes]
  | cons c front ih =>
    obtain ⟨n, hn⟩ := Nat.exists_eq_succ_of_ne_zero (Nat.ne_of_gt c.utf8Size_pos)
    rw [List.cons_append, byteLength_cons, hn, Nat.succ_add, takeBytes, hn,
      show n + byteLength front + 1 - n.succ = byteLength front by omega, ih]

/-- Between two places stands what the text has there. -/
theorem slice_append (front middle rest : List Char) :
    slice (byteLength front) (byteLength front + byteLength middle) (front ++ (middle ++ rest)) =
      middle := by
  rw [slice, dropBytes_append, Nat.add_sub_cancel_left]
  exact takeBytes_append middle rest

end Reckoner.Text
