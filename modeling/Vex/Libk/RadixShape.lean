import Vex.Libk.Radix
import Mathlib.Tactic.Ring

/-! The shape of a radix tree: what hangs where. A node at level `l` covers the indices with a
common prefix `b`, all but the last `l` digits in base 64; an item is at level 0, its prefix is
its index. `Holds` says that the heap holds exactly the nodes a placement `ptr` of levels and
prefixes names, each linked from the one above. -/

namespace Vex.Libk

open Function Finset

/-! ## Digits -/

theorem pow_64 (n : Nat) : 64 ^ n = 2 ^ (n * 6) := by
  rw [show 64 = 2 ^ 6 from rfl, ← pow_mul, mul_comm]

theorem fits_iff : fits height index ↔ index.toNat < 64 ^ height := by
  rw [fits, Bool.or_eq_true, decide_eq_true_eq, beq_iff_eq, pow_64]
  constructor
  · rintro (hbi | hshift)
    · exact index.isLt.trans_le (Nat.pow_le_pow_right (by decide) hbi)
    have h0 := congrArg BitVec.toNat hshift
    rw [BitVec.toNat_ushiftRight, Nat.shiftRight_eq_div_pow] at h0
    exact Nat.lt_of_div_eq_zero (Nat.two_pow_pos _) h0
  · intro hlt
    refine .inr (BitVec.eq_of_toNat_eq ?_)
    rw [BitVec.toNat_ushiftRight, Nat.shiftRight_eq_div_pow]
    exact Nat.div_eq_of_lt hlt

theorem slotOf_val (level : Nat) (index : BitVec 64) :
    (slotOf (level + 1) index).val = index.toNat / 64 ^ level % 64 := by
  have hmk : RADIX_MASK.toNat = 2 ^ 6 - 1 := rfl
  rw [slotOf, BitVec.toNat_and, BitVec.toNat_ushiftRight, hmk, Nat.and_two_pow_sub_one_eq_mod,
    Nat.shiftRight_eq_div_pow, pow_64]
  exact Nat.mod_mod _ _

theorem prefix_split (n level : Nat) :
    64 * (n / 64 ^ (level + 1)) + n / 64 ^ level % 64 = n / 64 ^ level := by
  rw [pow_succ, ← Nat.div_div_eq_div_mul]
  exact Nat.div_add_mod _ _

/-! ## Placements -/

/-- `ptr l b` is what hangs at level `l` under the prefix `b`, or 0. -/
abbrev Placement := Nat → Nat → Nat

def Placement.put (ptr : Placement) (l b p : Nat) : Placement :=
  update ptr l (update (ptr l) b p)

namespace Placement

variable {ptr : Placement} {l b p : Nat}

theorem put_apply : ptr.put l b p l' b' = if l' = l ∧ b' = b then p else ptr l' b' := by
  by_cases hl : l' = l
  · subst hl
    by_cases hb : b' = b
    · simp [put, hb]
    · simp [put, hb]
  · simp [put, hl]

@[simp] theorem put_self : ptr.put l b p l b = p := by simp [put_apply]

theorem put_of_level_ne (h : l' ≠ l) : ptr.put l b p l' b' = ptr l' b' := by
  simp [put_apply, h]

theorem eq_or_of_put_ne_zero (h : ptr.put l b p l' b' ≠ 0) :
    l' = l ∧ b' = b ∧ p ≠ 0 ∨ ¬(l' = l ∧ b' = b) ∧ ptr l' b' ≠ 0 := by
  rw [put_apply] at h
  split at h
  case isTrue heq => exact .inl ⟨heq.1, heq.2, h⟩
  case isFalse hold => exact .inr ⟨hold, h⟩

theorem of_put_zero_ne_zero (h : ptr.put l b 0 l' b' ≠ 0) : ¬(l' = l ∧ b' = b) ∧ ptr l' b' ≠ 0 :=
  (eq_or_of_put_ne_zero h).resolve_left fun heq => heq.2.2 rfl

end Placement

open Placement

/-- The slots in use. -/
def RadixNode.used (node : RadixNode) : Nat := (Finset.univ.filter fun i => node.slots i ≠ 0).card

/-- The node holds what is placed below the prefix `b`, at level `l`. -/
structure Fills (node : RadixNode) (ptr : Placement) (l b : Nat) : Prop where
  slots : ∀ i, node.slots i = ptr l (64 * b + i)
  count : node.count = node.used

theorem RadixNode.set_slots {node : RadixNode} {count : Nat} :
    (node.set i p count).slots j = if j = i then p else node.slots j := update_apply ..

theorem used_set_of_zero {node : RadixNode} (h : node.slots i = 0) (hp : p ≠ 0) :
    (node.set i p count).used = node.used + 1 := by
  have hfilter : (univ.filter fun j => (node.set i p count).slots j ≠ 0) =
      insert i (univ.filter fun j => node.slots j ≠ 0) := by
    ext j
    simp only [mem_filter, mem_univ, RadixNode.set_slots]
    by_cases hj : j = i
    · simp [hj, hp]
    · simp [hj]
  rw [RadixNode.used, hfilter, card_insert_of_notMem (by simp [h])]
  rfl

theorem used_set_zero {node : RadixNode} (h : node.slots i ≠ 0) :
    (node.set i 0 count).used = node.used - 1 := by
  have hbk : ((node.set i 0 count).set i (node.slots i) 0).used = (node.set i 0 count).used + 1 :=
    used_set_of_zero (update_self ..) h
  have hsls : ((node.set i 0 count).set i (node.slots i) 0).slots = node.slots := by
    simp [RadixNode.set]
  rw [RadixNode.used, hsls] at hbk
  exact (Nat.sub_eq_of_eq_add hbk).symm

theorem used_eq_zero {node : RadixNode} : node.used = 0 ↔ ∀ i, node.slots i = 0 := by
  simp [RadixNode.used]

namespace Fills

variable {node : RadixNode} {ptr : Placement} {l b c p : Nat}

theorem zero (h : ∀ i : Fin RADIX_SLOTS, ptr l (64 * b + i) = 0) : Fills .zero ptr l b where
  slots i := (h i).symm
  count := (used_eq_zero.mpr fun _ => rfl).symm

theorem put_of_ne (h : Fills node ptr l b) (hne : l' ≠ l ∨ c / 64 ≠ b) :
    Fills node (ptr.put l' c p) l b where
  slots i := by
    rw [h.slots i, put_apply, if_neg]
    rintro ⟨rfl, rfl⟩
    rcases hne with hl | hb
    · exact hl rfl
    apply hb
    have : i.val < 64 := i.isLt
    omega
  count := h.count

theorem slots_put (h : Fills node ptr l (c / 64)) (hi : i.val = c % 64) (j : Fin RADIX_SLOTS) :
    (node.set i p n).slots j = ptr.put l c p l (64 * (c / 64) + j) := by
  have hc := Nat.div_add_mod c 64
  by_cases hj : j = i
  · subst hj
    rw [hi, hc]
    simp [RadixNode.set_slots]
  · have hne : 64 * (c / 64) + j.val ≠ c := fun heq => hj (Fin.ext (by omega))
    simp [RadixNode.set_slots, hj, put_apply, hne, h.slots j]

theorem slot_eq (h : Fills node ptr l (c / 64)) (hi : i.val = c % 64) : node.slots i = ptr l c := by
  rw [h.slots, hi, Nat.div_add_mod]

theorem put_new (h : Fills node ptr l (c / 64)) (hi : i.val = c % 64) (hnl : ptr l c = 0)
    (hp : p ≠ 0) : Fills (node.set i p (node.count + 1)) (ptr.put l c p) l (c / 64) where
  slots := h.slots_put hi
  count := by
    rw [used_set_of_zero ((h.slot_eq hi).trans hnl) hp, ← h.count]
    rfl

theorem put_zero (h : Fills node ptr l (c / 64)) (hi : i.val = c % 64) (hne : ptr l c ≠ 0) :
    Fills (node.set i 0 (node.count - 1)) (ptr.put l c 0) l (c / 64) where
  slots := h.slots_put hi
  count := by
    rw [used_set_zero (h.slot_eq hi ▸ hne), ← h.count]
    rfl

end Fills

/-- The heap holds the tree with the given root and height, its nodes and items as `ptr` places
them. -/
structure Holds (heap : RadixHeap) (height root : Nat) (ptr : Placement) : Prop where
  rooted : height = 0 ∧ root = 0 ∨ 0 < height ∧ root ≠ 0 ∧ ptr height 0 = root
  height_le : height ≤ RADIX_MAX_DEPTH
  top : ∀ l b, ptr l b ≠ 0 → 0 < height ∧ l ≤ height ∧ b < 64 ^ (height - l)
  small : ∀ l b, ptr l b ≠ 0 → b * 64 ^ l < 2 ^ 64
  node : ∀ l b, ptr (l + 1) b ≠ 0 → ∃ node, heap (ptr (l + 1) b) = some node ∧ Fills node ptr l b
  up : ∀ l b, ptr l b ≠ 0 → l < height → ptr (l + 1) (b / 64) ≠ 0
  inj : ∀ l b l' b', ptr (l + 1) b ≠ 0 → ptr (l + 1) b = ptr (l' + 1) b' → l = l' ∧ b = b'
  live : ∀ p, (heap p).isSome → p ≠ 0 ∧ ∃ l b, ptr (l + 1) b = p

namespace Holds

variable {heap heap1 : RadixHeap} {height root : Nat} {ptr : Placement} {k c p : Nat}
  {node : RadixNode} {i : Fin RADIX_SLOTS}

section
variable (h : Holds heap height root ptr)
include h

theorem isSome (hne : ptr (l + 1) b ≠ 0) : (heap (ptr (l + 1) b)).isSome := by
  obtain ⟨node, hnd, -⟩ := h.node l b hne
  simp [hnd]

theorem ne_of_free (hfree : heap p = none) (hne : ptr (l + 1) b ≠ 0) : ptr (l + 1) b ≠ p := by
  rintro rfl
  exact absurd (h.isSome hne) (by simp [hfree])

theorem below_eq_zero (hnl : ptr (k + 1) c = 0) (hk : k < height) (j : Nat) (hj : j < 64) :
    ptr k (64 * c + j) = 0 := by
  by_contra hne
  have hup := h.up k _ hne hk
  rw [show (64 * c + j) / 64 = c by omega] at hup
  exact hup hnl

theorem prefixes (hne : ptr l (n / 64 ^ l) ≠ 0) (d : Nat) (hd : l + d ≤ height) :
    ptr (l + d) (n / 64 ^ (l + d)) ≠ 0 := by
  induction d with
  | zero => exact hne
  | succ d ih =>
    have hup := h.up _ _ (ih (by omega)) (by omega)
    rwa [Nat.div_div_eq_div_mul, ← pow_succ] at hup

theorem above (hne : ptr l b ≠ 0) (hl : l + d ≤ height) : ptr (l + d) (b / 64 ^ d) ≠ 0 := by
  have hup := h.prefixes (n := b * 64 ^ l) (l := l) (by simpa using hne) d hl
  rwa [pow_add, mul_comm (64 ^ l), Nat.mul_div_mul_right _ _ (by simp)] at hup

/-- A node that neither changes nor is the parent of what changes. -/
theorem node_kept (hne : ptr (l + 1) b ≠ 0) (hup : ¬(l = k ∧ b = c / 64))
    (hhp : heap1 (ptr (l + 1) b) = heap (ptr (l + 1) b)) :
    ∃ node, heap1 (ptr (l + 1) b) = some node ∧ Fills node (ptr.put k c p) l b := by
  obtain ⟨node, hnd, hfil⟩ := h.node _ _ hne
  refine ⟨node, hhp.trans hnd, hfil.put_of_ne ?_⟩
  by_contra hcon
  exact hup ⟨by omega, by omega⟩

/-- A null slot gets an item, at level 0, or a new node. -/
theorem add (hpar : ptr (k + 1) (c / 64) ≠ 0) (hnl : ptr k c = 0) (hp : p ≠ 0)
    (hsmall : c * 64 ^ k < 2 ^ 64)
    (hnd : heap (ptr (k + 1) (c / 64)) = some node) (hi : i.val = c % 64)
    (hhp : k = 0 ∧ heap1 = heap ∨ k ≠ 0 ∧ heap p = none ∧ heap1 = update heap p (some .zero)) :
    Holds (update heap1 (ptr (k + 1) (c / 64)) (some (node.set i p (node.count + 1))))
      height root (ptr.put k c p) := by
  obtain ⟨hpos, hk, hpre⟩ := h.top _ _ hpar
  have hfre : ∀ l b, ptr (l + 1) b ≠ 0 → k ≠ 0 → ptr (l + 1) b ≠ p := by
    intro l b hne hk0
    exact h.ne_of_free (hhp.resolve_left fun hit => hk0 hit.1).2.1 hne
  -- nodes other than the new one and its parent are as they were
  have hoth : ∀ l b, ptr (l + 1) b ≠ 0 → heap1 (ptr (l + 1) b) = heap (ptr (l + 1) b) := by
    intro l b hne
    rcases hhp with ⟨-, rfl⟩ | ⟨hk0, -, rfl⟩
    · rfl
    · rw [update_of_ne (hfre l b hne hk0)]
  refine ⟨?_, h.height_le, ?_, ?_, ?_, ?_, ?_, ?_⟩
  · obtain ⟨-, hrt, heq⟩ := h.rooted.resolve_left (by omega)
    rw [put_of_level_ne (by omega)]
    exact .inr ⟨hpos, hrt, heq⟩
  · intro l b hne
    rcases eq_or_of_put_ne_zero hne with ⟨rfl, rfl, -⟩ | ⟨-, hne⟩
    · refine ⟨hpos, by omega, ?_⟩
      rw [show height - l = height - (l + 1) + 1 by omega]
      exact Nat.lt_mul_of_div_lt hpre (by decide)
    · exact h.top l b hne
  · intro l b hne
    rcases eq_or_of_put_ne_zero hne with ⟨rfl, rfl, -⟩ | ⟨-, hne⟩
    · exact hsmall
    · exact h.small l b hne
  · intro l b hne
    by_cases hnew : l + 1 = k ∧ b = c
    · obtain ⟨rfl, rfl⟩ := hnew
      obtain ⟨-, hnone, rfl⟩ := hhp.resolve_left (by simp)
      rw [put_self, update_of_ne (hfre _ _ hpar (by simp)).symm, update_self]
      refine ⟨_, rfl, .zero fun j => ?_⟩
      rw [put_of_level_ne (by omega)]
      exact h.below_eq_zero hnl (by omega) j j.isLt
    · rw [put_apply, if_neg hnew] at hne ⊢
      by_cases hup : l = k ∧ b = c / 64
      · obtain ⟨rfl, rfl⟩ := hup
        obtain ⟨node', hnd', hfil⟩ := h.node _ _ hne
        cases hnd.symm.trans hnd'
        exact ⟨_, update_self .., hfil.put_new hi hnl hp⟩
      · have hne' : ptr (l + 1) b ≠ ptr (k + 1) (c / 64) := fun heq => hup (h.inj _ _ _ _ hne heq)
        exact h.node_kept hne hup (by rw [update_of_ne hne', hoth l b hne])
  · intro l b hne hl
    rw [put_apply]
    split
    · exact hp
    rcases eq_or_of_put_ne_zero hne with ⟨rfl, rfl, -⟩ | ⟨-, hne⟩
    · exact hpar
    · exact h.up l b hne hl
  · intro l b l' b' hne heq
    rw [put_apply, put_apply] at heq
    rw [put_apply] at hne
    split at heq
    case isTrue hnew =>
      split at heq
      case isTrue hnew' => omega
      case isFalse => exact absurd heq.symm (hfre l' b' (heq ▸ hp) (by omega))
    case isFalse hold =>
      rw [if_neg hold] at hne
      split at heq
      case isTrue hnew' => exact absurd heq (hfre l b hne (by omega))
      case isFalse => exact h.inj l b l' b' hne heq
  · intro q hq
    by_cases hqp : k ≠ 0 ∧ q = p
    · obtain ⟨hk0, rfl⟩ := hqp
      obtain ⟨k, rfl⟩ := Nat.exists_eq_succ_of_ne_zero hk0
      exact ⟨hp, k, c, put_self⟩
    have hlive : (heap q).isSome := by
      by_cases hqu : q = ptr (k + 1) (c / 64)
      · rw [hqu]
        exact h.isSome hpar
      rw [update_of_ne hqu] at hq
      rcases hhp with ⟨-, rfl⟩ | ⟨hk0, -, rfl⟩
      · exact hq
      · rwa [update_of_ne (fun heq => hqp ⟨hk0, heq⟩)] at hq
    obtain ⟨hq0, l, b, rfl⟩ := h.live q hlive
    refine ⟨hq0, l, b, ?_⟩
    rw [put_apply, if_neg]
    rintro ⟨rfl, rfl⟩
    exact hq0 hnl

/-- A slot is cleared: its item is gone, or the node it led to, which has nothing below. -/
theorem clear (hne : ptr k c ≠ 0) (hk : k < height)
    (hblw : ∀ l, k = l + 1 → ∀ j < 64, ptr l (64 * c + j) = 0)
    (hnd : heap (ptr (k + 1) (c / 64)) = some node) (hi : i.val = c % 64)
    (hhp : k = 0 ∧ heap1 = heap ∨ k ≠ 0 ∧ heap1 = update heap (ptr k c) none) :
    Holds (update heap1 (ptr (k + 1) (c / 64)) (some (node.set i 0 (node.count - 1))))
      height root (ptr.put k c 0) := by
  have hpar := h.up k c hne hk
  -- nodes other than the one that goes and its parent are as they were
  have hoth : ∀ l b, ptr (l + 1) b ≠ 0 → ¬(l + 1 = k ∧ b = c) →
      heap1 (ptr (l + 1) b) = heap (ptr (l + 1) b) := by
    intro l b hl hold
    rcases hhp with ⟨-, rfl⟩ | ⟨hk0, rfl⟩
    · rfl
    obtain ⟨k, rfl⟩ := Nat.exists_eq_succ_of_ne_zero hk0
    refine update_of_ne (fun heq => hold ?_) ..
    obtain ⟨rfl, rfl⟩ := h.inj _ _ _ _ hl heq
    exact ⟨rfl, rfl⟩
  refine ⟨?_, h.height_le, ?_, ?_, ?_, ?_, ?_, ?_⟩
  · obtain ⟨hpos, hrt, heq⟩ := h.rooted.resolve_left (by omega)
    rw [put_of_level_ne (by omega)]
    exact .inr ⟨hpos, hrt, heq⟩
  · intro l b hl
    exact h.top l b (of_put_zero_ne_zero hl).2
  · intro l b hl
    exact h.small l b (of_put_zero_ne_zero hl).2
  · intro l b hl
    obtain ⟨hold, hl⟩ := of_put_zero_ne_zero hl
    rw [put_apply, if_neg hold]
    by_cases hup : l = k ∧ b = c / 64
    · obtain ⟨rfl, rfl⟩ := hup
      obtain ⟨node', hnd', hfil⟩ := h.node _ _ hpar
      cases hnd.symm.trans hnd'
      exact ⟨_, update_self .., hfil.put_zero hi hne⟩
    · have hne' : ptr (l + 1) b ≠ ptr (k + 1) (c / 64) := fun heq => hup (h.inj _ _ _ _ hl heq)
      exact h.node_kept hl hup (by rw [update_of_ne hne', hoth l b hl hold])
  · intro l b hl hlt
    have hold := (of_put_zero_ne_zero hl).2
    rw [put_apply, if_neg]
    · exact h.up l b hold hlt
    rintro ⟨rfl, hb⟩
    refine hold ?_
    have := hblw l rfl (b % 64) (Nat.mod_lt _ (by decide))
    rwa [← hb, Nat.div_add_mod] at this
  · intro l b l' b' hl heq
    obtain ⟨hold, hl'⟩ := of_put_zero_ne_zero hl
    obtain ⟨hold', -⟩ := of_put_zero_ne_zero (heq ▸ hl)
    rw [put_apply, put_apply, if_neg hold, if_neg hold'] at heq
    exact h.inj l b l' b' hl' heq
  · intro q hq
    have hlive : (heap q).isSome ∧ ¬(k ≠ 0 ∧ q = ptr k c) := by
      by_cases hqu : q = ptr (k + 1) (c / 64)
      · subst hqu
        refine ⟨h.isSome hpar, fun ⟨hk0, heq⟩ => ?_⟩
        obtain ⟨k, rfl⟩ := Nat.exists_eq_succ_of_ne_zero hk0
        have := (h.inj _ _ _ _ hpar heq).1
        omega
      · rw [update_of_ne hqu] at hq
        rcases hhp with ⟨hk0, rfl⟩ | ⟨hk0, rfl⟩
        · exact ⟨hq, fun hcon => hcon.1 hk0⟩
        by_cases hqc : q = ptr k c
        · rw [hqc, update_self] at hq
          cases hq
        · rw [update_of_ne hqc] at hq
          exact ⟨hq, fun hcon => hqc hcon.2⟩
    obtain ⟨hq0, l, b, rfl⟩ := h.live q hlive.1
    refine ⟨hq0, l, b, ?_⟩
    rw [put_apply, if_neg]
    rintro ⟨rfl, rfl⟩
    exact hlive.2 ⟨by omega, rfl⟩

end

theorem empty : Holds (fun _ => none) 0 0 fun _ _ => 0 where
  rooted := .inl ⟨rfl, rfl⟩
  height_le := Nat.zero_le _
  top _ _ h := absurd rfl h
  small _ _ h := absurd rfl h
  node _ _ h := absurd rfl h
  up _ _ h := absurd rfl h
  inj _ _ _ _ h := absurd rfl h
  live _ h := by cases h

theorem eq_zero_of_height (h : Holds heap 0 root ptr) (l b : Nat) : ptr l b = 0 := by
  by_contra hne
  exact absurd (h.top l b hne).1 (by decide)

theorem heap_eq_none_of_height (h : Holds heap 0 root ptr) (q : Nat) : heap q = none := by
  by_contra hne
  obtain ⟨hq0, l, b, rfl⟩ := h.live q (Option.isSome_iff_ne_none.mpr hne)
  exact hq0 (h.eq_zero_of_height _ _)

theorem plant (h : Holds heap 0 root ptr) (hp : p ≠ 0) (hpos : 0 < k) (hk : k ≤ RADIX_MAX_DEPTH) :
    Holds (update heap p (some .zero)) k p (ptr.put k 0 p) := by
  have hput : ∀ l b, ptr.put k 0 p l b ≠ 0 → l = k ∧ b = 0 := by
    intro l b hne
    rcases eq_or_of_put_ne_zero hne with ⟨hl, hb, -⟩ | ⟨-, hne⟩
    · exact ⟨hl, hb⟩
    · exact absurd (h.eq_zero_of_height l b) hne
  refine ⟨.inr ⟨hpos, hp, put_self⟩, hk, ?_, ?_, ?_, ?_, ?_, ?_⟩
  · intro l b hne
    obtain ⟨rfl, rfl⟩ := hput l b hne
    exact ⟨hpos, le_rfl, by simp⟩
  · intro l b hne
    obtain ⟨rfl, rfl⟩ := hput l b hne
    simp
  · intro l b hne
    obtain ⟨rfl, rfl⟩ := hput _ _ hne
    rw [put_self, update_self]
    refine ⟨_, rfl, .zero fun j => ?_⟩
    rw [put_of_level_ne (by omega)]
    exact h.eq_zero_of_height _ _
  · intro l b hne hl
    obtain ⟨rfl, rfl⟩ := hput l b hne
    omega
  · intro l b l' b' hne heq
    obtain ⟨rfl, rfl⟩ := hput _ _ hne
    obtain ⟨hl, rfl⟩ := hput _ _ (heq ▸ hne)
    exact ⟨by omega, rfl⟩
  · intro q hq
    by_cases hqp : q = p
    · subst hqp
      refine ⟨hp, k - 1, 0, ?_⟩
      rw [show k - 1 + 1 = k by omega, put_self]
    · rw [update_of_ne hqp, h.heap_eq_none_of_height] at hq
      cases hq

theorem grow (h : Holds heap height root ptr) (hpos : 0 < height) (hp : p ≠ 0)
    (hfree : heap p = none) (hht : height < RADIX_MAX_DEPTH) :
    Holds (update heap p (some (RadixNode.zero.set 0 root 1))) (height + 1) p
      (ptr.put (height + 1) 0 p) := by
  obtain ⟨-, hrt, hrtd⟩ := h.rooted.resolve_left (by omega)
  have hput : ∀ l b, ptr.put (height + 1) 0 p l b ≠ 0 →
      l = height + 1 ∧ b = 0 ∨ ptr l b ≠ 0 ∧ l ≤ height := by
    intro l b hne
    rcases eq_or_of_put_ne_zero hne with ⟨hl, hb, -⟩ | ⟨-, hne⟩
    · exact .inl ⟨hl, hb⟩
    · exact .inr ⟨hne, (h.top l b hne).2.1⟩
  refine ⟨.inr ⟨Nat.succ_pos _, hp, put_self⟩, hht, ?_, ?_, ?_, ?_, ?_, ?_⟩
  · intro l b hne
    rcases hput l b hne with ⟨rfl, rfl⟩ | ⟨hne, hl⟩
    · simp
    · refine ⟨Nat.succ_pos _, by omega, (h.top l b hne).2.2.trans_le ?_⟩
      exact Nat.pow_le_pow_right (by decide) (by omega)
  · intro l b hne
    rcases hput l b hne with ⟨rfl, rfl⟩ | ⟨hne, -⟩
    · simp
    · exact h.small l b hne
  · intro l b hne
    rcases hput _ _ hne with ⟨hl, rfl⟩ | ⟨hne, hl⟩
    · obtain rfl : l = height := by omega
      rw [put_self, update_self]
      refine ⟨_, rfl, ?_, ?_⟩
      · intro j
        rw [put_of_level_ne (by omega), RadixNode.set_slots]
        split
        case isTrue hj => simp [hj, hrtd]
        case isFalse hj =>
          by_contra hne
          have hlt := (h.top l _ (Ne.symm hne)).2.2
          exact hj (Fin.ext (by simpa using hlt))
      · rw [used_set_of_zero rfl hrt]
        rfl
    · rw [put_of_level_ne (by omega)]
      exact h.node_kept hne (by omega) (update_of_ne (h.ne_of_free hfree hne) ..)
  · intro l b hne hl
    rcases hput l b hne with ⟨rfl, rfl⟩ | ⟨hold, hle⟩
    · omega
    by_cases hlast : l = height
    · subst hlast
      have hlt := (h.top l b hold).2.2
      rw [Nat.sub_self] at hlt
      rw [show b / 64 = 0 by omega, put_self]
      exact hp
    · rw [put_of_level_ne (by omega)]
      exact h.up l b hold (by omega)
  · intro l b l' b' hne heq
    rcases hput _ _ hne with ⟨hl, rfl⟩ | ⟨hl, hle⟩
    · rcases hput _ _ (heq ▸ hne) with ⟨hl', rfl⟩ | ⟨hl', hle'⟩
      · exact ⟨by omega, rfl⟩
      · rw [hl, put_self, put_of_level_ne (by omega)] at heq
        exact absurd heq.symm (h.ne_of_free hfree hl')
    · rw [put_of_level_ne (by omega)] at heq
      rcases hput _ _ (heq ▸ hl) with ⟨hl', rfl⟩ | ⟨hl', hle'⟩
      · rw [hl', put_self] at heq
        exact absurd heq (h.ne_of_free hfree hl)
      · rw [put_of_level_ne (by omega)] at heq
        exact h.inj _ _ _ _ hl heq
  · intro q hq
    by_cases hqp : q = p
    · exact ⟨hqp ▸ hp, height, 0, hqp ▸ put_self⟩
    rw [update_of_ne hqp] at hq
    obtain ⟨hq0, l, b, rfl⟩ := h.live q hq
    have hle := (h.top _ _ hq0).2.1
    exact ⟨hq0, l, b, put_of_level_ne (by omega)⟩

/-- A level that holds nothing but the first node below is taken off. -/
theorem shrink (h : Holds heap (height + 1) root ptr) (hpos : 0 < height)
    (hfst : ptr height 0 ≠ 0) (honly : ∀ b, ptr height b ≠ 0 → b = 0) :
    Holds (update heap root none) height (ptr height 0) (ptr.put (height + 1) 0 0) := by
  obtain ⟨-, hrt, hrtd⟩ := h.rooted.resolve_left (by omega)
  have hput : ∀ l b, ptr.put (height + 1) 0 0 l b ≠ 0 → ptr l b ≠ 0 ∧ l ≤ height := by
    intro l b hne
    obtain ⟨hold, hne⟩ := of_put_zero_ne_zero hne
    obtain ⟨-, hl, hb⟩ := h.top l b hne
    refine ⟨hne, ?_⟩
    by_contra hgt
    obtain rfl : l = height + 1 := by omega
    rw [Nat.sub_self] at hb
    exact hold ⟨rfl, by omega⟩
  have hroot_ne : ∀ l b, ptr (l + 1) b ≠ 0 → l + 1 ≤ height → ptr (l + 1) b ≠ root := by
    intro l b hne hl heq
    rw [← hrtd] at heq
    have := (h.inj _ _ _ _ hne heq).1
    omega
  have hpre : ∀ l b, ptr l b ≠ 0 → l ≤ height → b < 64 ^ (height - l) := by
    intro l b hne hl
    have hup := h.above hne (d := height - l) (by omega)
    rw [show l + (height - l) = height by omega] at hup
    exact Nat.lt_of_div_eq_zero (by simp) (honly _ hup)
  refine ⟨.inr ⟨hpos, hfst, put_of_level_ne (by omega)⟩,
    (Nat.le_succ _).trans h.height_le, ?_, ?_, ?_, ?_, ?_, ?_⟩
  · intro l b hne
    obtain ⟨hne, hl⟩ := hput l b hne
    exact ⟨hpos, hl, hpre l b hne hl⟩
  · intro l b hne
    exact h.small l b (hput l b hne).1
  · intro l b hne
    obtain ⟨hne, hl⟩ := hput _ _ hne
    rw [put_of_level_ne (by omega)]
    exact h.node_kept hne (by omega) (update_of_ne (hroot_ne l b hne hl) ..)
  · intro l b hne hl
    rw [put_of_level_ne (by omega)]
    exact h.up l b (hput l b hne).1 (by omega)
  · intro l b l' b' hne heq
    obtain ⟨hl, hle⟩ := hput _ _ hne
    obtain ⟨-, hle'⟩ := hput _ _ (heq ▸ hne)
    rw [put_of_level_ne (by omega), put_of_level_ne (by omega)] at heq
    exact h.inj _ _ _ _ hl heq
  · intro q hq
    by_cases hqr : q = root
    · rw [hqr, update_self] at hq
      cases hq
    rw [update_of_ne hqr] at hq
    obtain ⟨hq0, l, b, rfl⟩ := h.live q hq
    refine ⟨hq0, l, b, ?_⟩
    rw [put_apply, if_neg]
    rintro ⟨hl, rfl⟩
    exact hqr (by rw [hl, hrtd])

theorem uproot (h : Holds heap (height + 1) root ptr) (honly : ∀ b, ptr height b = 0) :
    (∀ q, update heap root none q = none) ∧ ∀ n, ptr 0 n = 0 := by
  have h0 : ∀ l b, l ≤ height → ptr l b = 0 := by
    intro l b hl
    by_contra hne
    have hup := h.above hne (d := height - l) (by omega)
    rw [show l + (height - l) = height by omega] at hup
    exact hup (honly _)
  refine ⟨fun q => ?_, fun n => h0 0 n (Nat.zero_le _)⟩
  by_cases hqr : q = root
  · rw [hqr, update_self]
  rw [update_of_ne hqr]
  by_contra hne
  obtain ⟨hq0, l, b, rfl⟩ := h.live q (Option.isSome_iff_ne_none.mpr hne)
  obtain ⟨-, hl, hb⟩ := h.top _ _ hq0
  by_cases hlast : l = height
  · subst hlast
    rw [Nat.sub_self] at hb
    obtain ⟨-, -, hrtd⟩ := h.rooted.resolve_left (by omega)
    exact hqr (by rw [← hrtd, show b = 0 by omega])
  · exact hq0 (h0 _ _ (by omega))

end Holds

end Vex.Libk
