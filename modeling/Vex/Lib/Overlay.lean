import Mathlib.Data.List.Basic

/-! Writing a run of values into a function of the position. A store that is written in pieces,
page by page or sector by sector, is written as a whole: `overlay_append`. -/

namespace Vex.Lib

variable {α : Type*} {m m' : Nat → α} {a b : List α} {at' x : Nat}

/-- `m` with the values of `l` from position `at'` on. -/
def overlay (at' : Nat) (l : List α) (m : Nat → α) (x : Nat) : α :=
  if at' ≤ x then (l[x - at']?).getD (m x) else m x

@[simp] theorem overlay_nil (at' : Nat) (m : Nat → α) : overlay at' [] m = m := by
  funext x
  simp [overlay]

theorem overlay_of_lt (h : x < at') : overlay at' a m x = m x := by
  rw [overlay, if_neg (by omega)]

theorem overlay_of_ge (h : at' + a.length ≤ x) : overlay at' a m x = m x := by
  rw [overlay]
  split
  · rw [List.getElem?_eq_none (by omega), Option.getD_none]
  · rfl

theorem overlay_of_mem (h : at' ≤ x) (hx : x - at' < a.length) :
    overlay at' a m x = a[x - at'] := by
  rw [overlay, if_pos h, List.getElem?_eq_getElem hx, Option.getD_some]

theorem overlay_append (at' : Nat) (a b : List α) (m : Nat → α) :
    overlay (at' + a.length) b (overlay at' a m) = overlay at' (a ++ b) m := by
  funext x
  by_cases h1 : x < at'
  · rw [overlay_of_lt (by omega), overlay_of_lt h1, overlay_of_lt h1]
  by_cases h2 : x < at' + a.length
  · have hlt : x - at' < a.length := by omega
    rw [overlay_of_lt h2, overlay_of_mem (by omega) hlt, overlay_of_mem (by omega)
      (by rw [List.length_append]; omega), List.getElem_append_left hlt]
  · have hsub : x - at' - a.length = x - (at' + a.length) := by omega
    rw [overlay, if_pos (by omega), overlay_of_ge (by omega), overlay, if_pos (by omega),
      List.getElem?_append_right (by omega), hsub]

theorem overlay_shift (k : Nat) (h : x < at' ∨ at' + a.length ≤ x → m x = m' (k + x)) :
    overlay at' a m x = overlay (k + at') a m' (k + x) := by
  by_cases h1 : x < at'
  · rw [overlay_of_lt h1, overlay_of_lt (by omega), h (.inl h1)]
  by_cases h2 : at' + a.length ≤ x
  · rw [overlay_of_ge h2, overlay_of_ge (by omega), h (.inr h2)]
  have hsub : k + x - (k + at') = x - at' := by omega
  rw [overlay_of_mem (by omega) (by omega), overlay_of_mem (by omega) (by omega)]
  simp only [hsub]

end Vex.Lib
