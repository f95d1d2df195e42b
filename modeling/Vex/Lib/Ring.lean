import Mathlib.Data.Nat.ModEq

/-! Rings whose positions count up and wrap around: the cell of a position is its remainder by the
size of the ring, which divides the number of positions. -/

namespace Vex.Lib

open Function

variable {α : Type*} {size w : Nat} {cells : Nat → α} {p : BitVec w} {m n k : Nat} {a : α}

/-- The `n` cells from a position on. -/
def span (size : Nat) (cells : Nat → α) (p : BitVec w) (n : Nat) : List α :=
  (List.range n).map fun i => cells ((p.toNat + i) % size)

@[simp] theorem length_span : (span size cells p n).length = n := by simp [span]

theorem span_succ :
    span size cells p (n + 1) = span size cells p n ++ [cells ((p.toNat + n) % size)] := by
  simp [span, List.range_succ]

theorem toNat_add_mod (h : size ∣ 2 ^ w) :
    (p + BitVec.ofNat w n).toNat % size = (p.toNat + n) % size := by
  rw [BitVec.toNat_add, BitVec.toNat_ofNat, Nat.mod_mod_of_dvd _ h, Nat.add_mod,
    Nat.mod_mod_of_dvd _ h, ← Nat.add_mod]

theorem span_add (h : size ∣ 2 ^ w) :
    span size cells p (m + n) =
      span size cells p m ++ span size cells (p + BitVec.ofNat w m) n := by
  simp only [span, List.range_add, List.map_append, List.map_map]
  congr 1
  apply List.map_congr_left
  intro i _
  rw [Function.comp_apply, ← Nat.add_assoc, Nat.add_mod, ← toNat_add_mod h, ← Nat.add_mod]

/-- A cell is written past those of the span, and not a whole turn away. -/
theorem span_update (hn : n ≤ k) (hk : k < size) :
    span size (update cells ((p.toNat + k) % size) a) p n = span size cells p n := by
  apply List.map_congr_left
  intro i hi
  have hi := List.mem_range.mp hi
  apply update_of_ne
  intro heq
  have hmod : (i + p.toNat) % size = (k + p.toNat) % size := by
    rwa [Nat.add_comm i, Nat.add_comm k]
  have hmod := Nat.ModEq.add_right_cancel' _ hmod
  rw [Nat.ModEq, Nat.mod_eq_of_lt (by omega), Nat.mod_eq_of_lt hk] at hmod
  omega

theorem span_put (hn : n < size) :
    span size (update cells ((p.toNat + n) % size) a) p (n + 1) =
      span size cells p n ++ [a] := by
  rw [span_succ, span_update (Nat.le_refl n) hn, update_self]

theorem toNat_add_sub (hn : n < 2 ^ w) : (p + BitVec.ofNat w n - p).toNat = n := by
  rw [BitVec.add_comm, BitVec.add_sub_cancel, BitVec.toNat_ofNat, Nat.mod_eq_of_lt hn]

end Vex.Lib
