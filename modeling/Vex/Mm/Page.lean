import Mathlib.Data.Nat.ModEq

/-! Pages and protections: `vex/page.h`, `vex/vprot.h` and the parts of `arch/pmap.h` that
decide how far user space reaches and what a page table entry keeps of a protection. -/

namespace Vex.Mm

open BitVec

/-! ## Pages -/

abbrev PAGE_SIZE : Nat := 4096

/-- `page_align`: the start of the page of an address. -/
def pageAlign (address : Nat) : Nat := address / PAGE_SIZE * PAGE_SIZE

def pageOffset (address : Nat) : Nat := address % PAGE_SIZE

theorem pageAlign_add_pageOffset (a : Nat) : pageAlign a + pageOffset a = a :=
  Nat.div_add_mod' a PAGE_SIZE

theorem pageAlign_le (a : Nat) : pageAlign a ≤ a := Nat.div_mul_le_self a PAGE_SIZE

@[simp] theorem pageOffset_pageAlign (a : Nat) : pageOffset (pageAlign a) = 0 := Nat.mul_mod_left ..

theorem pageAlign_of_offset_eq_zero (h : pageOffset a = 0) : pageAlign a = a := by
  have := pageAlign_add_pageOffset a; omega

/-- An aligned bound lies on the same side of an address and of the start of its page. -/
theorem le_pageAlign_iff (hs : pageOffset s = 0) : s ≤ pageAlign a ↔ s ≤ a := by
  constructor
  · exact fun h => h.trans (pageAlign_le a)
  intro h
  rw [← pageAlign_of_offset_eq_zero hs]
  exact Nat.mul_le_mul_right _ (Nat.div_le_div_right h)

theorem pageAlign_lt_iff (he : pageOffset e = 0) : pageAlign a < e ↔ a < e := by
  have := le_pageAlign_iff (a := a) he
  omega

theorem pageAlign_add (h : pageOffset a + i < PAGE_SIZE) : pageAlign (a + i) = pageAlign a := by
  simp only [pageOffset, PAGE_SIZE] at h
  simp only [pageAlign, PAGE_SIZE]
  omega

theorem pageOffset_add (h : pageOffset a + i < PAGE_SIZE) :
    pageOffset (a + i) = pageOffset a + i := by
  have h1 := pageAlign_add_pageOffset a
  have h2 := pageAlign_add_pageOffset (a + i)
  rw [pageAlign_add h] at h2
  omega

/-! ## Protections -/

/-- `unsigned vprot`. -/
abbrev Vprot := BitVec 32

def VPROT_NONE : Vprot := 0x0000
def VPROT_READ : Vprot := 0x0001
def VPROT_WRITE : Vprot := 0x0002
def VPROT_EXEC : Vprot := 0x0004
def VPROT_USER : Vprot := 0x0008
def VPROT_CACHE_MASK : Vprot := 0x0030

/-- The C test `vprot & VPROT_WRITE`. -/
def Vprot.writes (vprot : Vprot) : Bool := vprot &&& VPROT_WRITE != 0

theorem VPROT_WRITE_getLsbD : ∀ i : Fin 32, VPROT_WRITE.getLsbD i = decide (i.val = 1) := by
  decide

theorem Vprot.writes_eq (v : Vprot) : Vprot.writes v = v.getLsbD 1 := by
  rw [Vprot.writes, Bool.eq_iff_iff, bne_iff_ne]
  constructor
  · intro h
    by_contra hv
    apply h
    refine eq_of_getLsbD_eq fun i hi => ?_
    rw [getLsbD_and, VPROT_WRITE_getLsbD ⟨i, hi⟩]
    by_cases h1 : i = 1
    · subst h1
      simp only [Bool.not_eq_true] at hv
      rw [hv, Bool.false_and]
      rfl
    · simp [h1]
  · intro hv h0
    have := congrArg (getLsbD · 1) h0
    simp only [getLsbD_and, hv, Bool.true_and] at this
    exact absurd this (by decide)

@[simp] theorem Vprot.writes_or_user (v : Vprot) :
    Vprot.writes (v ||| VPROT_USER) = Vprot.writes v := by
  have : VPROT_USER.getLsbD 1 = false := by decide
  simp only [Vprot.writes_eq, getLsbD_or, this, Bool.or_false]

@[simp] theorem Vprot.writes_and_not_write (v : Vprot) :
    Vprot.writes (v &&& ~~~VPROT_WRITE) = false := by
  have : (~~~VPROT_WRITE).getLsbD 1 = false := by decide
  simp only [Vprot.writes_eq, getLsbD_and, this, Bool.and_false]

@[simp] theorem Vprot.writes_and_not_user (v : Vprot) :
    Vprot.writes (v &&& ~~~VPROT_USER) = Vprot.writes v := by
  have : (~~~VPROT_USER).getLsbD 1 = true := by decide
  simp only [Vprot.writes_eq, getLsbD_and, this, Bool.and_true]

/-! ## The reach of user space -/

def PMENTRY_LVL1_SHIFT : Nat := 12
def PMENTRY_LEVEL_BITS : Nat := 9

/-- `pmap_detect_levels`, from the paging mode the bootloader reports (0 is
`LIMINE_PAGING_MODE_X86_64_4LVL`, 1 is `LIMINE_PAGING_MODE_X86_64_5LVL`). -/
def pmapDetectLevels (mode : Nat) : Nat :=
  if mode ≥ 1 then 5 else if mode ≥ 0 then 4 else 3

/-- `pmap_user_end`, for the number of levels `sys_pmap` was set up with. -/
def pmapUserEnd (mode : Nat) : Nat :=
  2 ^ (PMENTRY_LVL1_SHIFT + PMENTRY_LEVEL_BITS * pmapDetectLevels mode - 1)

def VMS_MMAP_TOP : Nat := 0x0000600000000000
def VMS_MMAP_MIN : Nat := 0x0000000000010000

theorem pmapDetectLevels_eq (mode : Nat) :
    pmapDetectLevels mode = 4 ∨ pmapDetectLevels mode = 5 := by
  unfold pmapDetectLevels
  split
  · exact .inr rfl
  · exact .inl (if_pos (Nat.zero_le _))

theorem mmapTop_le_userEnd (mode : Nat) : VMS_MMAP_TOP ≤ pmapUserEnd mode := by
  unfold pmapUserEnd
  rcases pmapDetectLevels_eq mode with h | h <;> rw [h] <;> decide

theorem pageOffset_mmapTop : pageOffset VMS_MMAP_TOP = 0 := by decide

end Vex.Mm
