import Mathlib.Algebra.BigOperators.Group.Finset.Piecewise
import Mathlib.Algebra.Order.BigOperators.Group.Finset
import Mathlib.Data.Nat.Count

/-! A pool of numbered units in groups, with the number of free units kept in three places: as the
clear bits of each group's bitmap, as a count for each group, and as one total. A pool is balanced
when the three agree. Taking a unit, and putting it back, which is the same step read backwards,
keep a pool balanced. -/

namespace Vex.Lib

open Finset

/-- The clear bits among the first `n`. -/
def clears (used : Nat → Bool) (n : Nat) : Nat := Nat.count (fun k => used k = false) n

structure Pool where
  used : Nat → Nat → Bool
  free : Nat → Nat
  total : Nat

theorem count_eq_add_one [DecidablePred p] [DecidablePred q] (hk : k < n) (hpk : p k)
    (hq : ∀ j < n, q j ↔ p j ∧ j ≠ k) : Nat.count p n = Nat.count q n + 1 := by
  have herase : (range n).filter q = ((range n).filter p).erase k := by
    ext j
    simp only [mem_filter, mem_range, mem_erase]
    constructor
    · rintro ⟨hj, hqj⟩
      obtain ⟨hpj, hjk⟩ := (hq j hj).mp hqj
      exact ⟨hjk, hj, hpj⟩
    · rintro ⟨hjk, hj, hpj⟩
      exact ⟨hj, (hq j hj).mpr ⟨hpj, hjk⟩⟩
  have hmem : k ∈ (range n).filter p := mem_filter.mpr ⟨mem_range.mpr hk, hpk⟩
  rw [Nat.count_eq_card_filter_range, Nat.count_eq_card_filter_range, herase,
    card_erase_add_one hmem]

theorem count_congr [DecidablePred p] [DecidablePred q] (h : ∀ j < n, p j ↔ q j) :
    Nat.count p n = Nat.count q n := by
  rw [Nat.count_eq_card_filter_range, Nat.count_eq_card_filter_range]
  exact congrArg card
    (filter_congr fun j hj => h j (mem_range.mp hj))

theorem clears_le (used : Nat → Bool) (n : Nat) : clears used n ≤ n := Nat.count_le _

theorem clears_pos : 0 < clears used n ↔ ∃ k < n, used k = false := by
  rw [clears, Nat.count_eq_card_filter_range, card_pos]
  constructor
  · rintro ⟨k, hk⟩
    obtain ⟨hn, hclr⟩ := mem_filter.mp hk
    exact ⟨k, mem_range.mp hn, hclr⟩
  · rintro ⟨k, hn, hclr⟩
    exact ⟨k, mem_filter.mpr ⟨mem_range.mpr hn, hclr⟩⟩

theorem clears_of_prefix (h : ∀ k < n, used k = decide (k < m)) : clears used n = n - m := by
  induction n with
  | zero => rw [clears, Nat.count_zero, Nat.zero_sub]
  | succ n ih =>
    have hrs : clears used n = n - m := ih fun k hk => h k (Nat.lt_succ_of_lt hk)
    rw [clears] at hrs ⊢
    rw [Nat.count_succ, h n (Nat.lt_succ_self n)]
    by_cases hm : n < m <;> simp [hm] <;> omega

namespace Pool

variable {groups g k : Nat} {limit : Nat → Nat} {p p' : Pool}

structure Balanced (groups : Nat) (limit : Nat → Nat) (p : Pool) : Prop where
  free : ∀ g < groups, p.free g = clears (p.used g) (limit g)
  total : p.total = ∑ g ∈ Finset.range groups, p.free g

/-- The pools agree on every unit and every count. -/
structure Same (groups : Nat) (limit : Nat → Nat) (p p' : Pool) : Prop where
  used : ∀ h < groups, ∀ j < limit h, p'.used h j = p.used h j
  free : ∀ h < groups, p'.free h = p.free h
  total : p'.total = p.total

/-- The free unit `k` of group `g` is taken from `p`, which leaves `p'`. -/
structure Takes (groups : Nat) (limit : Nat → Nat) (p : Pool) (g k : Nat) (p' : Pool) : Prop where
  group : g < groups
  unit : k < limit g
  clear : p.used g k = false
  used : ∀ h < groups, ∀ j < limit h, p'.used h j = (p.used h j || decide (h = g ∧ j = k))
  free : ∀ h < groups, p.free h = p'.free h + if h = g then 1 else 0
  total : p.total = p'.total + 1

theorem Same.clears_eq (h : Same groups limit p p') (hg : g < groups) :
    clears (p'.used g) (limit g) = clears (p.used g) (limit g) :=
  count_congr fun j hj => by rw [h.used g hg j hj]

theorem Same.balanced (h : Same groups limit p p') (hp : Balanced groups limit p) :
    Balanced groups limit p' where
  free g hg := by rw [h.free g hg, h.clears_eq hg, hp.free g hg]
  total := by
    rw [h.total, hp.total]
    exact sum_congr rfl fun g hg => (h.free g (mem_range.mp hg)).symm

theorem Takes.clears_eq (h : Takes groups limit p g k p') (hlt : h' < groups) :
    clears (p.used h') (limit h') =
      clears (p'.used h') (limit h') + if h' = g then 1 else 0 := by
  by_cases heq : h' = g
  · subst heq
    rw [if_pos rfl]
    refine count_eq_add_one h.unit h.clear fun j hj => ?_
    rw [h.used _ hlt j hj]
    simp
  · rw [if_neg heq]
    exact count_congr fun j hj => by rw [h.used _ hlt j hj]; simp [heq]

theorem Takes.count_used (h : Takes groups limit p g k p') (q : Nat → Prop) [DecidablePred q]
    (hlt : h' < groups) : Nat.count (fun j => p'.used h' j = true ∧ q j) (limit h') =
      Nat.count (fun j => p.used h' j = true ∧ q j) (limit h') + if h' = g ∧ q k then 1 else 0 := by
  by_cases hnew : h' = g ∧ q k
  · obtain ⟨rfl, hq⟩ := hnew
    rw [if_pos ⟨rfl, hq⟩]
    refine count_eq_add_one h.unit ?_ fun j hj => ?_
    · simp [h.used _ hlt k h.unit, hq]
    · rw [h.used _ hlt j hj]
      by_cases hjk : j = k <;> simp [hjk, h.clear]
  · rw [if_neg hnew]
    refine count_congr fun j hj => ?_
    rw [h.used _ hlt j hj]
    by_cases hjk : h' = g ∧ j = k
    · obtain ⟨rfl, rfl⟩ := hjk
      have hq : ¬q j := fun hq => hnew ⟨rfl, hq⟩
      simp [hq]
    · simp [hjk]

theorem Takes.sum_eq (h : Takes groups limit p g k p') :
    ∑ g ∈ range groups, p.free g = (∑ g ∈ range groups, p'.free g) + 1 := by
  have hspl : ∑ g ∈ range groups, p.free g =
      ∑ h ∈ range groups, (p'.free h + if h = g then 1 else 0) :=
    sum_congr rfl fun h' hh => h.free h' (mem_range.mp hh)
  rw [hspl, sum_add_distrib, sum_ite_eq', if_pos (mem_range.mpr h.group)]

theorem Takes.balanced_iff (h : Takes groups limit p g k p') :
    Balanced groups limit p' ↔ Balanced groups limit p := by
  constructor
  · intro hp
    refine ⟨fun g' hg => ?_, by rw [h.total, hp.total, h.sum_eq]⟩
    rw [h.free g' hg, h.clears_eq hg, hp.free g' hg]
  intro hp
  refine ⟨fun g' hg => ?_, ?_⟩
  · have hfree := h.free g' hg
    rw [hp.free g' hg, h.clears_eq hg] at hfree
    omega
  · have htot := h.total
    rw [hp.total, h.sum_eq] at htot
    omega

section
variable (hp : Balanced groups limit p)
include hp

theorem Balanced.congr (h : ∀ g < groups, limit g = limit' g) : Balanced groups limit' p :=
  ⟨fun g hg => h g hg ▸ hp.free g hg, hp.total⟩

theorem Balanced.free_pos (hg : g < groups) :
    0 < p.free g ↔ ∃ k < limit g, p.used g k = false := by
  rw [hp.free g hg, clears_pos]

theorem Balanced.free_le (hg : g < groups) :
    p.free g ≤ limit g := hp.free g hg ▸ clears_le _ _

/-- A unit in use leaves room in the count of its group, and in the total. -/
theorem Balanced.count_lt (hg : g < groups) (hk : k < limit g) (hus : p.used g k = true) :
    p.free g < limit g ∧ p.total < ∑ g ∈ range groups, limit g := by
  have hfree : p.free g < limit g := by
    refine Nat.lt_of_le_of_ne (hp.free_le hg) fun heq => ?_
    rw [hp.free g hg, clears, Nat.count_iff_forall] at heq
    rw [heq k hk] at hus
    exact absurd hus (by decide)
  refine ⟨hfree, ?_⟩
  rw [hp.total]
  exact sum_lt_sum (fun h hh => hp.free_le (mem_range.mp hh))
    ⟨g, mem_range.mpr hg, hfree⟩

theorem Balanced.total_eq_zero :
    p.total = 0 ↔ ∀ g < groups, ∀ k < limit g, p.used g k = true := by
  rw [hp.total, sum_eq_zero_iff]
  constructor
  · intro h g hg k hk
    by_contra hus
    have hpos := (hp.free_pos hg).mpr ⟨k, hk, by simpa using hus⟩
    exact absurd (h g (mem_range.mpr hg)) (by omega)
  · intro h g hg
    have hg := mem_range.mp hg
    by_contra hne
    obtain ⟨k, hk, hclr⟩ := (hp.free_pos hg).mp (Nat.pos_of_ne_zero hne)
    rw [h g hg k hk] at hclr
    exact absurd hclr (by decide)

end

end Pool

end Vex.Lib
