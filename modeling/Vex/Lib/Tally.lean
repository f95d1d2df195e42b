import Mathlib.Algebra.Order.BigOperators.Group.Finset

/-! Sums of a weight over a finite family of components, of which a step changes one. -/

namespace Vex.Lib

open Finset

variable {ι σ : Type*} [Fintype ι]

def tally (g : σ → Nat) (f : ι → σ) : Nat := ∑ i, g (f i)

theorem tally_update [DecidableEq ι] (g : σ → Nat) (f : ι → σ) (i : ι) (x : σ) :
    tally g (Function.update f i x) + g (f i) = tally g f + g x := by
  have hrs : ∑ j ∈ univ.erase i, g (Function.update f i x j) = ∑ j ∈ univ.erase i, g (f j) :=
    sum_congr rfl fun j hj => by simp [ne_of_mem_erase hj]
  rw [tally, tally, ← sum_erase_add _ _ (mem_univ i), hrs,
    Function.update_self, ← sum_erase_add _ (fun j => g (f j)) (mem_univ i)]
  omega

theorem tally_add (g h : σ → Nat) (f : ι → σ) :
    tally (fun x => g x + h x) f = tally g f + tally h f := sum_add_distrib

theorem le_tally (g : σ → Nat) (f : ι → σ) (i : ι) : g (f i) ≤ tally g f :=
  single_le_sum (f := fun j => g (f j)) (fun _ _ => Nat.zero_le _) (mem_univ i)

theorem tally_eq_zero (g : σ → Nat) (f : ι → σ) : tally g f = 0 ↔ ∀ i, g (f i) = 0 := by
  simp [tally]

end Vex.Lib
