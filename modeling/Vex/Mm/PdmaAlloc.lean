import Mathlib.Order.Interval.Finset.Nat
import Vex.Mm.BootMemory

/-! The DMA allocator at run time: `pdma_alloc_phys` and `pdma_free_phys`. The bit of a page is set
if the page is free. All pages lie below `PDMA_APPROX_END`, so no sum and no address wraps. -/

namespace Vex.Mm.BootMemory

open Libk List Multiset

structure PdmaState extends Pdma where
  numused : Nat
  lastpage : Nat

namespace PdmaState

/-- `find_free_range`, with none for `SIZE_MAX`. -/
def findFreeRange (s : PdmaState) (first last numPages : Nat) : Option Nat :=
  (range' first (last + 1 - first)).find? fun page =>
    bitmapRangeIsset s.bitmap page (page + numPages - 1)

def take (s : PdmaState) (page numPages : Nat) : PdmaState :=
  { s with
    bitmap := bitmapRangeClear s.bitmap page (page + numPages - 1)
    lastpage := page + numPages
    numused := s.numused + numPages }

def allocPhys (s : PdmaState) (numPages : Nat) : Nat × PdmaState :=
  if numPages = 0 ∨ numPages > s.numpages then (0, s)
  else
    let lastStart := s.numpages - numPages
    let hint := if s.lastpage ≤ lastStart then s.lastpage else 0
    let page := s.findFreeRange hint lastStart numPages
    let page := if page = none ∧ hint > 0 then s.findFreeRange 0 (hint - 1) numPages else page
    match page with
    | none => (0, s)
    | some page => (page * PAGE_SIZE, s.take page numPages)

def freePhys (s : PdmaState) (phys numPages : Nat) : PdmaState :=
  let page := phys / PAGE_SIZE
  if phys ≠ 0 ∧ numPages ≠ 0 then
    { s with
      bitmap := bitmapRangeSet s.bitmap page (page + numPages - 1)
      numused := s.numused - numPages
      lastpage := page }
  else s

/-- The states of the allocator with the runs in use, by address and size: those that it handed out
and did not get back. What a failed call returned may be freed as well. -/
inductive Reach (p : Pdma) : PdmaState → Multiset (Nat × Nat) → Prop
  | init : Reach p ⟨p, 0, 0⟩ 0
  | alloc (n : Nat) : Reach p s live → Reach p (s.allocPhys n).2
      (if (s.allocPhys n).1 = 0 then live else ((s.allocPhys n).1, n) ::ₘ live)
  | free : Reach p s ((phys, n) ::ₘ live) → Reach p (s.freePhys phys n) live
  | freeNull (n : Nat) : Reach p s live → Reach p (s.freePhys 0 n) live

def pages (run : Nat × Nat) : Finset Nat :=
  .Ico (run.1 / PAGE_SIZE) (run.1 / PAGE_SIZE + run.2)

/-- How many of the runs have the page. -/
def owners (live : Multiset (Nat × Nat)) (page : Nat) : Nat := live.countP fun r => page ∈ pages r

/-- The pages from `page` on are free, as many as wanted. -/
def FreeRun (s : PdmaState) (page n : Nat) : Prop :=
  page + n ≤ s.numpages ∧ ∀ q ∈ Finset.Ico page (page + n), bitmapIsset s.bitmap q = true

variable {s : PdmaState} {p : Pdma} {first last page phys n q : Nat}
  {live : Multiset (Nat × Nat)}

/-! ## Searching -/

theorem mem_pages_iff (hn : 0 < n) :
    page ≤ q ∧ q ≤ page + n - 1 ↔ q ∈ Finset.Ico page (page + n) := by
  rw [Finset.mem_Ico]
  omega

theorem rangeIsset_iff (hn : 0 < n) : bitmapRangeIsset s.bitmap page (page + n - 1) ↔
    ∀ q ∈ Finset.Ico page (page + n), bitmapIsset s.bitmap q = true := by
  rw [bitmapRangeIsset_iff (by omega)]
  simp only [← mem_pages_iff hn, and_imp]

theorem findFreeRange_some (hn : 0 < n) (hlast : last + n ≤ s.numpages)
    (h : s.findFreeRange first last n = some page) : s.FreeRun page n := by
  have hin := mem_range'_1.mp (mem_of_find?_eq_some h)
  have hset := find?_some h
  exact ⟨by omega, (rangeIsset_iff hn).mp hset⟩

theorem findFreeRange_none (hn : 0 < n) (h : s.findFreeRange first last n = none)
    (hfst : first ≤ page) (hlast : page ≤ last) : ¬s.FreeRun page n := fun hfree =>
  find?_eq_none.mp h page (mem_range'_1.mpr (by omega)) ((rangeIsset_iff hn).mpr hfree.2)

/-- A call takes a run of free pages, or there is none. -/
theorem allocPhys_cases (s : PdmaState) (n : Nat) :
    (n = 0 ∨ ∀ page, ¬s.FreeRun page n) ∧ s.allocPhys n = (0, s) ∨
      0 < n ∧ ∃ page, s.FreeRun page n ∧ s.allocPhys n = (page * PAGE_SIZE, s.take page n) := by
  rw [allocPhys]
  split
  case isTrue h =>
    refine .inl ⟨h.imp_right fun hbig page hfree => ?_, rfl⟩
    have hend := hfree.1
    omega
  case isFalse h =>
    have hn : 0 < n := by omega
    extract_lets lastStart hint first found
    have hle : hint ≤ lastStart := by
      unfold hint
      split <;> omega
    cases hfnd : found with
    | some page =>
      refine .inr ⟨hn, page, ?_, rfl⟩
      unfold found at hfnd
      split at hfnd
      · exact findFreeRange_some hn (by omega) hfnd
      · exact findFreeRange_some hn (by omega) hfnd
    | none =>
      refine .inl ⟨.inr fun page hfree => ?_, rfl⟩
      have hend := hfree.1
      unfold found at hfnd
      split at hfnd
      case isTrue hwp =>
        by_cases hpg : hint ≤ page
        · exact findFreeRange_none hn hwp.1 hpg (by omega) hfree
        · exact findFreeRange_none hn hfnd (Nat.zero_le _) (by omega) hfree
      case isFalse hsty =>
        have h0 : ¬hint > 0 := fun hpos => hsty ⟨hfnd, hpos⟩
        exact findFreeRange_none hn hfnd (by omega) (by omega) hfree

/-! ## Every run -/

/-- A page that was free at the start is free, or one run in use has it. -/
structure Inv (p : Pdma) (s : PdmaState) (live : Multiset (Nat × Nat)) : Prop where
  numpages : s.numpages = p.numpages
  owners : ∀ q, owners live q + (bitmapIsset s.bitmap q).toNat = (bitmapIsset p.bitmap q).toNat
  runs : ∀ r ∈ live, r.1 ≠ 0 ∧ r.2 ≠ 0 ∧ PAGE_SIZE ∣ r.1 ∧ r.1 / PAGE_SIZE + r.2 ≤ p.numpages
  numused : s.numused = (live.map Prod.snd).sum

theorem Inv.take (h : Inv p s live) (h0 : bitmapIsset p.bitmap 0 = false) (hn : 0 < n)
    (hfree : s.FreeRun page n) :
    page * PAGE_SIZE ≠ 0 ∧ Inv p (s.take page n) ((page * PAGE_SIZE, n) ::ₘ live) := by
  obtain ⟨hend, hbi⟩ := hfree
  have hdiv : page * PAGE_SIZE / PAGE_SIZE = page := Nat.mul_div_cancel _ (by decide)
  have hpos : page * PAGE_SIZE ≠ 0 := by
    refine Nat.mul_ne_zero ?_ (by decide)
    rintro rfl
    have hfst := h.owners 0
    rw [hbi 0 (by simpa using hn), h0] at hfst
    cases hfst
  refine ⟨hpos, h.numpages, fun q => ?_, forall_mem_cons.mpr ⟨⟨hpos, hn.ne',
    dvd_mul_left _ _, ?_⟩, h.runs⟩, ?_⟩
  · have hq := h.owners q
    rw [PdmaState.take, bitmapIsset_rangeClear (by omega), PdmaState.owners, Multiset.countP_cons,
      pages, hdiv]
    simp only [mem_pages_iff hn]
    by_cases hin : q ∈ Finset.Ico page (page + n)
    · rw [hbi q hin] at hq
      rwa [if_pos hin, if_pos hin]
    · rwa [if_neg hin, if_neg hin]
  · rwa [hdiv, ← h.numpages]
  · rw [Multiset.map_cons, Multiset.sum_cons, ← h.numused]
    exact Nat.add_comm _ _

theorem Inv.give (h : Inv p s ((phys, n) ::ₘ live)) : Inv p (s.freePhys phys n) live := by
  obtain ⟨⟨hph, hn, -⟩, hruns⟩ := forall_mem_cons.mp h.runs
  have hus := h.numused
  rw [Multiset.map_cons, Multiset.sum_cons] at hus
  rw [freePhys, if_pos ⟨hph, hn⟩]
  refine ⟨h.numpages, fun q => ?_, hruns, Nat.sub_eq_of_eq_add' hus⟩
  have hq := h.owners q
  rw [PdmaState.owners, Multiset.countP_cons, pages] at hq
  rw [bitmapIsset_rangeSet (by omega)]
  simp only [mem_pages_iff (Nat.pos_of_ne_zero hn)]
  by_cases hin : q ∈ Finset.Ico (phys / PAGE_SIZE) (phys / PAGE_SIZE + n)
  · rw [if_pos hin] at hq ⊢
    have hle := (bitmapIsset p.bitmap q).toNat_le
    change PdmaState.owners live q + 1 + _ = _ at hq
    change _ + 1 = _
    omega
  · rwa [if_neg hin] at hq ⊢

theorem Reach.inv (h0 : bitmapIsset p.bitmap 0 = false) (h : Reach p s live) :
    Inv p s live := by
  induction h with
  | init => exact ⟨rfl, fun _ => Nat.zero_add _, by simp, rfl⟩
  | @alloc s live n _ ih =>
    rcases s.allocPhys_cases n with ⟨_, hcl⟩ | ⟨hn, page, hfree, hcl⟩
    · rwa [hcl, if_pos rfl]
    · obtain ⟨hpos, hinv⟩ := ih.take h0 hn hfree
      rwa [hcl, if_neg hpos]
  | free _ ih => exact ih.give
  | freeNull n _ ih => exact ih

/-- A page that was free at the start is free or in exactly one run in use, and no other page is in
any; a run is found if there is one, and the count of used pages is the size of all runs in use. -/
theorem dma_runs_disjoint_and_found (hzero : bitmapIsset p.bitmap 0 = false)
    (h : Reach p s live) :
    (∀ q, owners live q + (bitmapIsset s.bitmap q).toNat = (bitmapIsset p.bitmap q).toNat) ∧
      (∀ r ∈ live, PAGE_SIZE ∣ r.1 ∧ r.1 / PAGE_SIZE + r.2 ≤ p.numpages) ∧
      (∀ n, (s.allocPhys n).1 = 0 ↔ n = 0 ∨ ∀ page, ¬s.FreeRun page n) ∧
      s.numused = (live.map Prod.snd).sum := by
  have hinv := h.inv hzero
  refine ⟨hinv.owners, fun r hr => (hinv.runs r hr).2.2, fun n => ?_, hinv.numused⟩
  rcases s.allocPhys_cases n with ⟨hnone, hcall⟩ | ⟨hn, page, hfree, hcall⟩
  · exact iff_of_true (by rw [hcall]) hnone
  · rw [hcall]
    exact iff_of_false (hinv.take hzero hn hfree).1
      (not_or.mpr ⟨hn.ne', fun hnone => hnone page hfree⟩)

/-- Pages 1 to 31, all free. -/
def firstPages : Pdma := ⟨fun _ => 0x7FFFFFFF, 0, PAGE_SIZE, 32⟩

/-- Runs of 10, 10 and 11 pages take all of them. -/
def filled : PdmaState :=
  ((((PdmaState.mk firstPages 0 0).allocPhys 10).2.allocPhys 10).2.allocPhys 11).2

/-- The first two are given back, and the hint is page 11, between them. -/
def givenBack : PdmaState := (filled.freePhys PAGE_SIZE 10).freePhys (11 * PAGE_SIZE) 10

/-- The next run lies across the hint. -/
theorem dma_run_across_hint : givenBack.lastpage = 11 ∧ (givenBack.allocPhys 12).1 = PAGE_SIZE ∧
    (givenBack.allocPhys 12).2.numused = 23 ∧
    ∀ q, owners ((PAGE_SIZE, 12) ::ₘ {(21 * PAGE_SIZE, 11)}) q +
      (bitmapIsset (givenBack.allocPhys 12).2.bitmap q).toNat =
        (bitmapIsset firstPages.bitmap q).toNat := by
  have h : Reach firstPages filled
      ((PAGE_SIZE, 10) ::ₘ (11 * PAGE_SIZE, 10) ::ₘ {(21 * PAGE_SIZE, 11)}) := by
    convert Reach.alloc 11 (.alloc 10 (.alloc 10 .init)) using 1
    · rfl
    · decide +kernel
  have haddress : (givenBack.allocPhys 12).1 = PAGE_SIZE := by decide +kernel
  have hlast : Reach firstPages (givenBack.allocPhys 12).2 _ := .alloc 12 h.free.free
  rw [haddress, if_neg (by decide)] at hlast
  have hmain := dma_runs_disjoint_and_found (by decide) hlast
  exact ⟨rfl, haddress, hmain.2.2.2.trans (by decide), hmain.1⟩

end PdmaState

end Vex.Mm.BootMemory
