import Mathlib.Data.Int.Order.Basic
import Mathlib.Data.List.Basic
import Mathlib.Data.Nat.Basic
import Mathlib.Order.Basic

/-! `sort` (`sort.c`): heap sort of an array of any length by a comparison function. It leaves the
elements it was given, in order. -/

namespace Vex.Libk

variable {α : Type*} [Inhabited α] (cmp : α → α → Int)

/-- `swap_bytes` on two elements. -/
def swapBytes (xs : Array α) (i j : Nat) : Array α := xs.swapIfInBounds i j

/-- The child of `root` that `sift_down` compares it with. -/
def largerChild (xs : Array α) (root count : Nat) : Nat :=
  if 2 * root + 2 < count ∧ 0 < cmp xs[2 * root + 2]! xs[2 * root + 1]! then 2 * root + 2
  else 2 * root + 1

theorem lt_largerChild (xs : Array α) (root count : Nat) :
    root < largerChild cmp xs root count := by
  unfold largerChild
  split <;> omega

def siftDown (xs : Array α) (root count : Nat) : Array α :=
  if 2 * root + 1 < count then
    let child := largerChild cmp xs root count
    if 0 ≤ cmp xs[root]! xs[child]! then xs
    else siftDown (swapBytes xs root child) child count
  else xs
termination_by count - root
decreasing_by have := lt_largerChild cmp xs root count; omega

/-- The first loop of `sort`, with `i` positions to go. -/
def heapify (count : Nat) (xs : Array α) : Nat → Array α
  | 0 => xs
  | i + 1 => heapify count (siftDown cmp xs i count) i

/-- The second loop of `sort`. -/
def drain (xs : Array α) : Nat → Array α
  | 0 | 1 => xs
  | last + 2 => drain (siftDown cmp (swapBytes xs 0 (last + 1)) 0 (last + 1)) (last + 1)

def sort (xs : Array α) : Array α :=
  drain cmp (heapify cmp xs.size xs (xs.size / 2)) xs.size

/-! ## Rearrangements of a prefix -/

/-- `ys` has the elements of `xs`, those below `n` moved among themselves. -/
structure Rearranged (n : Nat) (xs ys : Array α) : Prop where
  perm : ys.Perm xs
  kept : ∀ i, n ≤ i → ys[i]! = xs[i]!
  all : ∀ p : α → Prop, (∀ i < n, p xs[i]!) → ∀ i < n, p ys[i]!

namespace Rearranged

variable {xs ys zs : Array α}

theorem refl : Rearranged n xs xs := ⟨.refl _, fun _ _ => rfl, fun _ h => h⟩

theorem trans (h : Rearranged n xs ys) (h' : Rearranged n ys zs) : Rearranged n xs zs where
  perm := h'.perm.trans h.perm
  kept i hi := (h'.kept i hi).trans (h.kept i hi)
  all p hp := h'.all p (h.all p hp)

theorem mono (h : Rearranged n xs ys) (hle : n ≤ m) : Rearranged m xs ys where
  perm := h.perm
  kept i hi := h.kept i (hle.trans hi)
  all p hp i hi := by
    rcases Nat.lt_or_ge i n with hlt | hge
    · exact h.all p (fun k hk => hp k (hk.trans_le hle)) i hlt
    · exact h.kept i hge ▸ hp i hi

theorem size_eq (h : Rearranged n xs ys) : ys.size = xs.size := h.perm.size_eq

end Rearranged

variable {xs : Array α}

theorem swapBytes_get (xs : Array α) (hi : i < xs.size) (hj : j < xs.size) (k : Nat) :
    (swapBytes xs i j)[k]! = if k = i then xs[j]! else if k = j then xs[i]! else xs[k]! := by
  rw [swapBytes, Array.swapIfInBounds_def, dif_pos hi]
  grind

theorem Rearranged.swap (hn : n ≤ xs.size) (hi : i < n) (hj : j < n) :
    Rearranged n xs (swapBytes xs i j) where
  perm := by
    rw [swapBytes, Array.swapIfInBounds_def, dif_pos (by omega), dif_pos (by omega)]
    exact Array.swap_perm ..
  kept k hk := by
    rw [swapBytes_get _ (by omega) (by omega), if_neg (by omega), if_neg (by omega)]
  all p hp k hk := by
    rw [swapBytes_get _ (by omega) (by omega)]
    split
    · exact hp j hj
    split
    · exact hp i hi
    · exact hp k hk

/-! ## Heaps -/

/-- `cmp` compares by a total order. -/
structure Compares {α : Type*} (cmp : α → α → Int) : Prop where
  trans : ∀ {a b c}, cmp a b ≤ 0 → cmp b c ≤ 0 → cmp a c ≤ 0
  flip : ∀ {a b}, 0 ≤ cmp a b ↔ cmp b a ≤ 0

/-- No element below `n` is larger than its parent, for the parents from `low` on. -/
def Heap (xs : Array α) (low n : Nat) : Prop :=
  ∀ c < n, 0 < c → low ≤ (c - 1) / 2 → cmp xs[c]! xs[(c - 1) / 2]! ≤ 0

/-- A heap but for the children of `root`, which are no larger than the parent of `root`. -/
structure Sifting (xs : Array α) (low root n : Nat) : Prop where
  off : ∀ c < n, 0 < c → low ≤ (c - 1) / 2 → (c - 1) / 2 ≠ root →
    cmp xs[c]! xs[(c - 1) / 2]! ≤ 0
  grand : ∀ c < n, 0 < c → (c - 1) / 2 = root → 0 < root → low ≤ (root - 1) / 2 →
    cmp xs[c]! xs[(root - 1) / 2]! ≤ 0

/-- In order from `n` on, with nothing larger before. -/
def TailSorted (xs : Array α) (n : Nat) : Prop :=
  ∀ i j, i < j → n ≤ j → j < xs.size → cmp xs[i]! xs[j]! ≤ 0

theorem Compares.refl {α : Type*} {cmp : α → α → Int} (hcmp : Compares cmp) (a : α) :
    cmp a a ≤ 0 := by
  rcases Int.le_total (cmp a a) 0 with h | h
  · exact h
  · exact hcmp.flip.mp h

section
variable {cmp} (hcmp : Compares cmp)
include hcmp

theorem largerChild_spec (xs : Array α) (hlt : 2 * root + 1 < n) :
    largerChild cmp xs root n < n ∧ (largerChild cmp xs root n - 1) / 2 = root ∧
      ∀ c < n, 0 < c → (c - 1) / 2 = root → cmp xs[c]! xs[largerChild cmp xs root n]! ≤ 0 := by
  have hch (c : Nat) (hc : 0 < c) (hp : (c - 1) / 2 = root) :
      c = 2 * root + 1 ∨ c = 2 * root + 2 := by omega
  unfold largerChild
  split
  next h =>
    refine ⟨h.1, by omega, fun c hc hpos hp => ?_⟩
    rcases hch c hpos hp with rfl | rfl
    · exact hcmp.flip.mp h.2.le
    · exact hcmp.refl _
  next h =>
    refine ⟨hlt, by omega, fun c hc hpos hp => ?_⟩
    rcases hch c hpos hp with rfl | rfl
    · exact hcmp.refl _
    · exact Int.not_lt.mp fun hpos => h ⟨hc, hpos⟩

theorem Sifting.move (h : Sifting cmp xs low root n) (hn : n ≤ xs.size) (hlow : low ≤ root)
    (hlt : 2 * root + 1 < n) (hcl : ¬0 ≤ cmp xs[root]! xs[largerChild cmp xs root n]!) :
    Sifting cmp (swapBytes xs root (largerChild cmp xs root n)) low
      (largerChild cmp xs root n) n := by
  obtain ⟨hch, hpar, hmax⟩ := largerChild_spec hcmp xs hlt
  have hgt := lt_largerChild cmp xs root n
  generalize largerChild cmp xs root n = child at *
  have hget := swapBytes_get xs (i := root) (by omega) (hch.trans_le hn)
  constructor
  · intro c hc hpos hle hne
    rw [hget, hget]
    by_cases hrt : c = root
    · subst hrt
      rw [if_pos rfl, if_neg (by omega), if_neg hne]
      exact h.grand child hch (by omega) hpar hpos hle
    by_cases hc' : c = child
    · subst hc'
      rw [if_neg hrt, if_pos rfl, if_pos hpar]
      omega
    rw [if_neg hrt, if_neg hc']
    by_cases hp : (c - 1) / 2 = root
    · rw [if_pos hp]
      exact hmax c hc hpos hp
    · rw [if_neg hp, if_neg hne]
      exact h.off c hc hpos hle hp
  · intro c hc hpos hp _ _
    rw [hget, hget, if_neg (by omega), if_neg (by omega), if_pos hpar, ← hp]
    exact h.off c hc hpos (by omega) (by omega)

theorem siftDown_spec (h : Sifting cmp xs low root n) (hn : n ≤ xs.size) (hlow : low ≤ root) :
    Heap cmp (siftDown cmp xs root n) low n ∧ Rearranged n xs (siftDown cmp xs root n) := by
  fun_induction siftDown cmp xs root n with
  | case1 xs root hlt child hsp =>
    refine ⟨fun c hc hpos hle => ?_, .refl⟩
    by_cases hp : (c - 1) / 2 = root
    · have hmax := (largerChild_spec hcmp xs hlt).2.2 c hc hpos hp
      exact hp ▸ hcmp.trans hmax (hcmp.flip.mp hsp)
    · exact h.off c hc hpos hle hp
  | case2 xs root hlt child hcl ih =>
    have hgt : root < child := lt_largerChild ..
    have hswap : Rearranged n xs (swapBytes xs root child) :=
      .swap hn (by omega) (largerChild_spec hcmp xs hlt).1
    obtain ⟨hhp, hre⟩ :=
      ih (h.move hcmp hn hlow hlt hcl) (hswap.size_eq ▸ hn) (hlow.trans hgt.le)
    exact ⟨hhp, hswap.trans hre⟩
  | case3 xs root hlt =>
    exact ⟨fun c hc hpos hle => h.off c hc hpos hle (by omega), .refl⟩

theorem heapify_spec (xs : Array α) (i : Nat) (hn : xs.size = n) (h : Heap cmp xs i n) :
    Heap cmp (heapify cmp n xs i) 0 n ∧ Rearranged n xs (heapify cmp n xs i) := by
  induction i generalizing xs with
  | zero => exact ⟨h, .refl⟩
  | succ i ih =>
    -- only the children of `i` may be larger than their parent
    have hsift : Sifting cmp xs i i n :=
      ⟨fun c hc hpos hle hne => h c hc hpos (by omega), fun _ _ _ _ _ _ => by omega⟩
    obtain ⟨hhp, hre⟩ := siftDown_spec hcmp hsift hn.ge le_rfl
    obtain ⟨hheap', hre'⟩ := ih _ (hre.size_eq.trans hn) hhp
    exact ⟨hheap', hre.trans hre'⟩

theorem Heap.root_max (h : Heap cmp xs 0 n) (hc : c < n) : cmp xs[c]! xs[0]! ≤ 0 := by
  induction c using Nat.strong_induction_on with
  | _ c ih =>
    rcases Nat.eq_zero_or_pos c with rfl | hpos
    · exact hcmp.refl _
    · exact hcmp.trans (h c hc hpos (Nat.zero_le _)) (ih _ (by omega) (by omega))

theorem drain_spec (h : Heap cmp xs 0 n) (htl : TailSorted cmp xs n) (hn : n ≤ xs.size) :
    TailSorted cmp (drain cmp xs n) 1 ∧ (drain cmp xs n).Perm xs := by
  fun_induction drain cmp xs n with
  | case1 xs => exact ⟨fun i j hij _ => htl i j hij (Nat.zero_le j), .refl _⟩
  | case2 xs => exact ⟨htl, .refl _⟩
  | case3 xs last ih =>
    have hget := swapBytes_get xs (i := 0) (j := last + 1) (by omega) (by omega)
    have hswap : Rearranged (last + 2) xs (swapBytes xs 0 (last + 1)) :=
      .swap hn (by omega) (by omega)
    have hsift : Sifting cmp (swapBytes xs 0 (last + 1)) 0 0 (last + 1) := by
      refine ⟨fun c hc hpos hle hne => ?_, fun _ _ _ _ hpos => absurd hpos (lt_irrefl 0)⟩
      rw [hget, hget, if_neg (by omega), if_neg (by omega), if_neg hne, if_neg (by omega)]
      exact h c (by omega) hpos hle
    obtain ⟨hhp, hre⟩ := siftDown_spec hcmp hsift (by have := hswap.size_eq; omega) le_rfl
    generalize siftDown cmp (swapBytes xs 0 (last + 1)) 0 (last + 1) = ys at *
    have hall := hswap.trans (hre.mono (Nat.le_succ _))
    have hsz := hall.size_eq
    have htail' : TailSorted cmp ys (last + 1) := by
      intro i j hij hj hlt
      rcases eq_or_lt_of_le hj with rfl | hj
      -- the element that was the root of the heap
      · rw [hre.kept _ le_rfl, hget, if_pos rfl]
        exact hall.all (cmp · xs[0]! ≤ 0) (fun k hk => h.root_max hcmp hk) i (by omega)
      -- an element of the old tail
      rw [hall.kept j hj]
      rcases Nat.lt_or_ge i (last + 2) with hi | hi
      · exact hall.all (cmp · xs[j]! ≤ 0) (fun k hk => htl k j (by omega) hj (by omega)) i hi
      · exact hall.kept i hi ▸ htl i j hij hj (by omega)
    obtain ⟨hsrt, hpm⟩ := ih hhp htail' (by omega)
    exact ⟨hsrt, hpm.trans hall.perm⟩

theorem sort_spec (xs : Array α) :
    (sort cmp xs).toList.Pairwise (cmp · · ≤ 0) ∧ (sort cmp xs).Perm xs := by
  obtain ⟨hhp, hre⟩ := heapify_spec hcmp xs (xs.size / 2) rfl
    fun c hc hpos hle => by omega
  have hsz := hre.size_eq
  obtain ⟨hsrt, hpm⟩ := drain_spec hcmp hhp (fun _ _ _ hj hlt => by omega) hsz.ge
  refine ⟨List.pairwise_iff_getElem.mpr fun i j hi hj hij => ?_, hpm.trans hre.perm⟩
  have := hsrt i j hij (by omega) hj
  rw [Array.length_toList] at hi hj
  rwa [getElem!_pos _ i hi, getElem!_pos _ j hj] at this

end

end Vex.Libk
