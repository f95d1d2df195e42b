import Mathlib.Data.BitVec

/-! Bit vectors as sets of bit numbers, with inclusion tested as C code does: `a & ~b` is zero. -/

namespace Vex.Lib

variable {w : Nat} {a b c : BitVec w}

/-- Every bit of `a` is one of `b`. -/
def Within (a b : BitVec w) : Prop := a &&& ~~~b = 0

instance : Decidable (Within a b) := inferInstanceAs (Decidable (_ = _))

theorem within_iff : Within a b ↔ ∀ i, a.getLsbD i = true → b.getLsbD i = true := by
  constructor
  · intro h i hi
    have hbit := congrArg (BitVec.getLsbD · i) h
    have hlt := BitVec.lt_of_getLsbD hi
    simpa [hi, hlt] using hbit
  · intro h
    refine BitVec.eq_of_getLsbD_eq fun i hi => ?_
    cases ha : a.getLsbD i with
    | false => simp [ha]
    | true => simp [ha, h i ha]

namespace Within

theorem refl (a : BitVec w) : Within a a := within_iff.mpr fun _ h => h

theorem trans (h : Within a b) (h' : Within b c) : Within a c :=
  within_iff.mpr fun i hi => within_iff.mp h' i (within_iff.mp h i hi)

theorem zero (b : BitVec w) : Within 0 b := by simp [Within]

theorem and_right (a b : BitVec w) : Within (a &&& b) b :=
  within_iff.mpr fun i hi => by simpa using (by simpa using hi : _ ∧ _).2

theorem or_right (h : Within a b) (c : BitVec w) : Within a (b ||| c) :=
  within_iff.mpr fun i hi => by simp [within_iff.mp h i hi]

theorem lacks (h : Within a b) (hi : b.getLsbD i = false) : a.getLsbD i = false := by
  cases ha : a.getLsbD i with
  | false => rfl
  | true => rw [within_iff.mp h i ha] at hi; cases hi

end Within

end Vex.Lib
