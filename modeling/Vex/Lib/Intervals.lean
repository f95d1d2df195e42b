import Mathlib.Data.List.Basic

/-! Ordered lists of disjoint half-open intervals that carry values: the list is a partial
function of the point, `valueAt`, and cutting, inserting and removing intervals are the
pointwise operations on it. The interval of an item `r : ρ` is `[lo r, hi r)` and its value at
a point may depend on the point. -/

namespace Vex.Lib.Intervals

open List

variable {ρ β : Type*} (lo hi : ρ → Nat) (val : ρ → Nat → β)

/-- The intervals are non-empty and each ends before the next one starts. -/
structure Ordered (l : List ρ) : Prop where
  pairwise : l.Pairwise fun r s => hi r ≤ lo s
  nonempty : ∀ r ∈ l, lo r < hi r

/-- `x` is a point of the interval of `r`. -/
def Has (x : Nat) (r : ρ) : Prop := lo r ≤ x ∧ x < hi r

instance : DecidablePred (Has lo hi x) := fun _ => inferInstanceAs (Decidable (_ ∧ _))

/-- The value at a point: that of the item whose interval has it. -/
def valueAt (l : List ρ) (x : Nat) : Option β :=
  (l.find? fun r => Has lo hi x r).map (val · x)

/-- No interval has points on both sides of the boundary `x`. -/
def CutAt (x : Nat) (l : List ρ) : Prop := ∀ r ∈ l, x ≤ lo r ∨ hi r ≤ x

variable {lo hi val} {l a b : List ρ} {r s : ρ} {x y : Nat}

namespace Ordered

theorem nil : Ordered lo hi ([] : List ρ) := ⟨.nil, by simp⟩

theorem append_iff : Ordered lo hi (a ++ b) ↔
    Ordered lo hi a ∧ Ordered lo hi b ∧ ∀ r ∈ a, ∀ s ∈ b, hi r ≤ lo s := by
  constructor
  · intro h
    obtain ⟨ha, hb, hab⟩ := pairwise_append.mp h.pairwise
    exact ⟨⟨ha, fun r hr => h.nonempty r (by simp [hr])⟩,
      ⟨hb, fun r hr => h.nonempty r (by simp [hr])⟩, hab⟩
  · intro ⟨ha, hb, hab⟩
    refine ⟨pairwise_append.mpr ⟨ha.pairwise, hb.pairwise, hab⟩, fun r hr => ?_⟩
    rcases mem_append.mp hr with hr | hr
    · exact ha.nonempty r hr
    · exact hb.nonempty r hr

theorem cons_iff : Ordered lo hi (r :: l) ↔
    lo r < hi r ∧ Ordered lo hi l ∧ ∀ s ∈ l, hi r ≤ lo s := by
  constructor
  · intro h
    obtain ⟨hr, hl⟩ := pairwise_cons.mp h.pairwise
    exact ⟨h.nonempty r (by simp), ⟨hl, fun s hs => h.nonempty s (by simp [hs])⟩, hr⟩
  · intro ⟨hr, hl, hrl⟩
    refine ⟨pairwise_cons.mpr ⟨hrl, hl.pairwise⟩, fun s hs => ?_⟩
    rcases mem_cons.mp hs with rfl | hs
    · exact hr
    · exact hl.nonempty s hs

theorem lo_le (h : Ordered lo hi (r :: l)) (hs : s ∈ r :: l) : lo r ≤ lo s := by
  obtain ⟨hr, -, hrl⟩ := cons_iff.mp h
  rcases mem_cons.mp hs with rfl | hs
  · exact Nat.le_refl _
  · exact Nat.le_trans (Nat.le_of_lt hr) (hrl s hs)

theorem sublist (h : Ordered lo hi l) (hs : List.Sublist a l) : Ordered lo hi a :=
  ⟨h.pairwise.sublist hs, fun r hr => h.nonempty r (hs.mem hr)⟩

theorem map (h : Ordered lo hi l) (hlo : ∀ r ∈ l, lo (f r) = lo r) (hhi : ∀ r ∈ l, hi (f r) = hi r)
    : Ordered lo hi (l.map f) := by
  refine ⟨pairwise_map.mpr (h.pairwise.imp_of_mem fun hr hs hrs => ?_), fun r hr => ?_⟩
  · rwa [hhi _ hr, hlo _ hs]
  obtain ⟨s, hs, rfl⟩ := mem_map.mp hr
  rw [hlo s hs, hhi s hs]
  exact h.nonempty s hs

end Ordered

@[simp] theorem valueAt_nil : valueAt lo hi val [] x = none := rfl

theorem valueAt_cons : valueAt lo hi val (r :: l) x =
    if Has lo hi x r then some (val r x) else valueAt lo hi val l x := by
  by_cases h : Has lo hi x r <;> simp [valueAt, h]

theorem valueAt_append : valueAt lo hi val (a ++ b) x =
    (valueAt lo hi val a x).or (valueAt lo hi val b x) := by
  induction a with
  | nil => simp
  | cons r a ih =>
    rw [cons_append, valueAt_cons, valueAt_cons, ih]
    split <;> rfl

theorem valueAt_eq_none (h : ∀ r ∈ l, ¬Has lo hi x r) : valueAt lo hi val l x = none := by
  simpa [valueAt] using h

theorem valueAt_eq_none_iff : valueAt lo hi val l x = none ↔ ∀ r ∈ l, ¬Has lo hi x r := by
  simp [valueAt]

theorem valueAt_of_mem (ho : Ordered lo hi l) (hr : r ∈ l) (hx : Has lo hi x r) :
    valueAt lo hi val l x = some (val r x) := by
  induction l with
  | nil => cases hr
  | cons s l ih =>
    obtain ⟨_, hl, hsl⟩ := Ordered.cons_iff.mp ho
    rw [valueAt_cons]
    rcases mem_cons.mp hr with rfl | hr
    · rw [if_pos hx]
    · have := hsl r hr
      rw [if_neg (fun hs => by have := hs.2; have := hx.1; omega), ih hl hr]

theorem Ordered.eq_of_has (ho : Ordered lo hi l) (hr : r ∈ l) (hs : s ∈ l) (hx : Has lo hi x r)
    (hy : Has lo hi x s) : r = s := by
  have h : valueAt lo hi (fun r _ => r) l x = some r := valueAt_of_mem ho hr hx
  rw [valueAt_of_mem ho hs hy] at h
  exact (Option.some.inj h).symm

theorem valueAt_eq_some_iff (ho : Ordered lo hi l) :
    valueAt lo hi val l x = some v ↔ ∃ r ∈ l, Has lo hi x r ∧ val r x = v := by
  constructor
  · intro h
    obtain ⟨r, hr, rfl⟩ := Option.map_eq_some_iff.mp h
    exact ⟨r, mem_of_find?_eq_some hr, by simpa using find?_some hr, rfl⟩
  · rintro ⟨r, hr, hx, rfl⟩
    exact valueAt_of_mem ho hr hx

theorem valueAt_map (hlo : ∀ r ∈ l, lo (f r) = lo r) (hhi : ∀ r ∈ l, hi (f r) = hi r) :
    valueAt lo hi val (l.map f) x =
      valueAt lo hi (fun r => val (f r)) l x := by
  induction l with
  | nil => rfl
  | cons r l ih =>
    have hr : Has lo hi x (f r) ↔ Has lo hi x r := by
      simp [Has, hlo r, hhi r]
    rw [map_cons, valueAt_cons, valueAt_cons,
      ih (fun s hs => hlo s (by simp [hs])) fun s hs => hhi s (by simp [hs])]
    simp only [hr]

theorem valueAt_congr (h : ∀ r ∈ l, Has lo hi x r → val r x = val' r x) :
    valueAt lo hi val l x = valueAt lo hi val' l x := by
  induction l with
  | nil => rfl
  | cons r l ih =>
    rw [valueAt_cons, valueAt_cons, ih fun s hs => h s (by simp [hs])]
    by_cases hr : Has lo hi x r
    · rw [if_pos hr, if_pos hr, h r (by simp) hr]
    · rw [if_neg hr, if_neg hr]

theorem valueAt_map_val (g : β → γ) :
    valueAt lo hi (fun r x => g (val r x)) l x = (valueAt lo hi val l x).map g := by
  simp [valueAt, Function.comp_def]

/-- Dropping the intervals of a window, at whose ends the list is cut, undefines exactly the
points of the window. -/
theorem valueAt_filter_window (hx : CutAt lo hi x l) (hy : CutAt lo hi y l) (ho : Ordered lo hi l)
    (z : Nat) :
    valueAt lo hi val (l.filter fun r => ¬(x ≤ lo r ∧ lo r < y)) z =
      if x ≤ z ∧ z < y then none else valueAt lo hi val l z := by
  induction l with
  | nil => simp
  | cons r l ih =>
    obtain ⟨hr, hl, hrl⟩ := Ordered.cons_iff.mp ho
    have ih := ih (fun s hs => hx s (by simp [hs])) (fun s hs => hy s (by simp [hs])) hl
    have h1 := hx r (by simp)
    have h2 := hy r (by simp)
    by_cases hin : x ≤ lo r ∧ lo r < y
    · rw [filter_cons_of_neg (by simpa using hin), ih, valueAt_cons]
      split
      · rfl
      · rw [if_neg (fun hz => by have := hz.1; have := hz.2; omega)]
    · rw [filter_cons_of_pos (by simp [hin]),
        valueAt_cons, ih, valueAt_cons]
      by_cases hz : Has lo hi z r
      · have := hz.1; have := hz.2
        rw [if_pos hz, if_pos hz, if_neg (by omega)]
      · rw [if_neg hz, if_neg hz]

end Vex.Lib.Intervals
