import Mathlib.Logic.Relation

/-! Relations without cycles. -/

namespace Vex.Lib

open Relation

variable {α : Type*} {r r' : α → α → Prop} {a b x y : α}

def Acyclic (r : α → α → Prop) : Prop := ∀ x, ¬TransGen r x x

theorem transGen_of_insert (hle : ∀ {x y}, r' x y → r x y ∨ x = a ∧ y = b) (h : TransGen r' x y) :
    TransGen r x y ∨ ReflTransGen r x a ∧ ReflTransGen r b y := by
  induction h with
  | single he =>
    rcases hle he with he | ⟨rfl, rfl⟩
    · exact .inl (.single he)
    · exact .inr ⟨.refl, .refl⟩
  | tail _ he ih =>
    rcases hle he with he | ⟨rfl, rfl⟩
    · rcases ih with ih | ⟨ih1, ih2⟩
      · exact .inl (ih.tail he)
      · exact .inr ⟨ih1, ih2.tail he⟩
    · rcases ih with ih | ⟨ih1, -⟩
      · exact .inr ⟨ih.to_reflTransGen, .refl⟩
      · exact .inr ⟨ih1, .refl⟩

/-- An edge closes a cycle only if there was a path back. -/
theorem Acyclic.insert (h : Acyclic r) (hbk : ¬ReflTransGen r b a)
    (hle : ∀ {x y}, r' x y → r x y ∨ x = a ∧ y = b) : Acyclic r' := by
  intro x hx
  rcases transGen_of_insert hle hx with hx | ⟨hxa, hbx⟩
  · exact h x hx
  · exact hbk (hbx.trans hxa)

theorem Acyclic.mono (h : Acyclic r) (hle : ∀ {x y}, r' x y → r x y) : Acyclic r' :=
  fun x hx => h x (hx.lift id fun _ _ => hle)

theorem reflTransGen_congr {P : α → Prop} (hP : ∀ {x y}, P x → r x y → P y)
    (hiff : ∀ {x y}, P x → (r x y ↔ r' x y)) (hx : P x) :
    ReflTransGen r x y ↔ ReflTransGen r' x y := by
  constructor
  · intro h
    induction h using ReflTransGen.head_induction_on with
    | refl => exact .refl
    | head he _ ih => exact (ih (hP hx he)).head ((hiff hx).1 he)
  · intro h
    induction h using ReflTransGen.head_induction_on with
    | refl => exact .refl
    | head he _ ih => exact (ih (hP hx ((hiff hx).2 he))).head ((hiff hx).2 he)

end Vex.Lib
