import Mathlib.Tactic.IntervalCases
import Vex.Mm.Pmap

/-! Page table entries read back what was written to them: the address below 2^52, and of the
protection all but the right to read, which every entry gives. An entry of a level stands for the
pages of its block, so a large one is the same as a table of entries of the level below. -/

namespace Vex.Mm.PageTables

open BitVec

/-! ## Flags -/

/-- What an entry keeps of a protection: a page that is there can be read. -/
def keptVprot (vprot : Vprot) : Vprot :=
  VPROT_READ ||| vprot &&& (VPROT_WRITE ||| VPROT_EXEC ||| VPROT_USER ||| VPROT_CACHE_MASK)

theorem pmentrySetup_eq (address : BitVec 64) (vprot : Vprot) (level : Nat) :
    pmentrySetup address vprot level =
      address &&& AMD64_PML_ADDRESS_MASK ||| pmentrySetup 0 vprot level := by
  have hex : address &&& AMD64_PML_ADDRESS_MASK &&& ~~~AMD64_PML_NOEXEC =
      address &&& AMD64_PML_ADDRESS_MASK := by
    rw [BitVec.and_assoc]
    rfl
  unfold pmentrySetup
  simp only [PMENTRY_NULL, ofNat_eq_ofNat, zero_or]
  split_ifs <;> simp [and_or_distrib_right, hex, BitVec.or_assoc]

/-- The levels of the tables there are. -/
def IsLevel (level : Nat) : Prop := 0 < level ∧ level ≤ 5

theorem isLevel_one : IsLevel 1 := ⟨by decide, by decide⟩

theorem IsLevel.cases (h : IsLevel level) :
    level = 1 ∨ level = 2 ∨ level = 3 ∨ level = 4 ∨ level = 5 := by
  obtain ⟨hpos, hle⟩ := h
  omega

theorem ofNat_PAGE_SIZE : BitVec.ofNat 64 PAGE_SIZE = pmentryLevelSize 1 := by decide

theorem flags_table : ∀ bits : Fin 64, ∀ level ≤ 5, 0 < level →
    let entry := pmentrySetup 0 (BitVec.ofNat 32 bits.val) level
    pmentryVprot entry level = keptVprot (BitVec.ofNat 32 bits.val) ∧
    pmentryValid entry = true ∧ pmentryLeaf entry level = true ∧
    entry &&& AMD64_PML_ADDRESS_MASK &&& ~~~(pmentryLevelSize level - 1) = 0 := by
  decide +kernel

/-- The flags depend on six bits of the protection. -/
theorem flags_spec (vprot : Vprot) (h : IsLevel level) : let entry := pmentrySetup 0 vprot level
    pmentryVprot entry level = keptVprot vprot ∧
    pmentryValid entry = true ∧ pmentryLeaf entry level = true ∧
    entry &&& AMD64_PML_ADDRESS_MASK &&& ~~~(pmentryLevelSize level - 1) = 0 := by
  have hbit : ∀ c : Vprot, 0x3F &&& c = c → vprot &&& 0x3F &&& c = vprot &&& c :=
    fun c hc => by rw [BitVec.and_assoc, hc]
  have hflg : pmentrySetup 0 vprot level = pmentrySetup 0 (vprot &&& 0x3F) level := by
    unfold pmentrySetup amd64PatBits
    rw [hbit _ rfl, hbit _ rfl, hbit _ rfl, hbit _ rfl]
  have hkt : keptVprot vprot = keptVprot (vprot &&& 0x3F) := by
    unfold keptVprot
    rw [hbit _ rfl]
  have hlt : (vprot &&& 0x3F).toNat < 64 := by
    exact (Nat.and_le_right).trans_lt (by decide)
  have hbi : vprot &&& 0x3F = BitVec.ofNat 32 (⟨_, hlt⟩ : Fin 64).val := by simp
  rw [hflg, hkt, hbi]
  exact flags_table _ level h.2 h.1

theorem and_flag (hc : address &&& AMD64_PML_ADDRESS_MASK &&& c = 0) :
    (address &&& AMD64_PML_ADDRESS_MASK ||| flags) &&& c = flags &&& c := by
  rw [and_or_distrib_right, hc]
  simp

theorem and_mask_flag (address c : BitVec 64) (hc : AMD64_PML_ADDRESS_MASK &&& c = 0) :
    address &&& AMD64_PML_ADDRESS_MASK &&& c = 0 := by
  rw [BitVec.and_assoc, hc]
  simp

theorem pmentryValid_setup (address : BitVec 64) (vprot : Vprot) (h : IsLevel level) :
    pmentryValid (pmentrySetup address vprot level) = true := by
  rw [pmentrySetup_eq, pmentryValid, and_flag (and_mask_flag _ _ (by decide))]
  exact (flags_spec vprot h).2.1

theorem pmentryLeaf_setup (address : BitVec 64) (vprot : Vprot) (h : IsLevel level) :
    pmentryLeaf (pmentrySetup address vprot level) level = true := by
  rw [pmentrySetup_eq, pmentryLeaf, and_flag (and_mask_flag _ _ (by decide))]
  exact (flags_spec vprot h).2.2.1

theorem pmentryValid_table (address : BitVec 64) :
    pmentryValid (pmentryTable address) = true := by
  rw [pmentryTable, pmentryValid, BitVec.or_assoc, BitVec.or_assoc,
    and_flag (and_mask_flag _ _ (by decide))]
  decide

theorem pmentryLeaf_table (address : BitVec 64) (hlvl : 1 < level) :
    pmentryLeaf (pmentryTable address) level = false := by
  rw [pmentryTable, pmentryLeaf, BitVec.or_assoc, BitVec.or_assoc,
    and_flag (and_mask_flag _ _ (by decide)), Bool.or_eq_false_iff]
  exact ⟨by simpa using hlvl.ne', by decide⟩

theorem pmentryTableAddress_table (h : IsFrame address) :
    pmentryTableAddress (pmentryTable address) = address := by
  rw [pmentryTable, pmentryTableAddress, BitVec.or_assoc, BitVec.or_assoc,
    and_or_distrib_right, BitVec.and_assoc, BitVec.and_self, h.2]
  have hflg : (AMD64_PML_PRESENT ||| (AMD64_PML_WRITE ||| AMD64_PML_USER)) &&&
      AMD64_PML_ADDRESS_MASK = 0 := by decide
  rw [hflg]
  simp

theorem keptVprot_pmentryVprot (entry : Pmentry) (level : Nat) :
    keptVprot (pmentryVprot entry level) = pmentryVprot entry level := by
  unfold pmentryVprot amd64PatVprot
  split_ifs <;> rfl

/-! ## Blocks -/

theorem pmentryLevelShift_eq (level : Nat) : pmentryLevelShift level = 12 + 9 * (level - 1) := rfl

theorem pmentryLevelShift_succ (level : Nat) :
    pmentryLevelShift (level + 1) = 12 + 9 * level := rfl

theorem IsLevel.shift_lt (h : IsLevel level) : pmentryLevelShift level < 64 := by
  obtain ⟨level, rfl⟩ := Nat.exists_eq_succ_of_ne_zero h.1.ne'
  have := h.2
  rw [pmentryLevelShift_succ]
  omega

section
variable {level : Nat} (h : IsLevel level)
include h

theorem toNat_pmentryLevelSize : (pmentryLevelSize level).toNat = 2 ^ pmentryLevelShift level := by
  rw [pmentryLevelSize, toNat_shiftLeft, toNat_ofNat, Nat.shiftLeft_eq]
  rw [Nat.mod_eq_of_lt (by decide : 1 < 2 ^ 64), one_mul]
  exact Nat.mod_eq_of_lt (Nat.pow_lt_pow_right (by decide) h.shift_lt)

theorem toNat_levelMask :
    (pmentryLevelSize level - 1).toNat = 2 ^ pmentryLevelShift level - 1 := by
  have hsz := toNat_pmentryLevelSize h
  have hpos := Nat.two_pow_pos (pmentryLevelShift level)
  rw [toNat_sub_of_le, hsz]
  · rfl
  · rw [le_def, hsz]
    exact hpos

theorem toNat_and_levelMask (virt : BitVec 64) :
    (virt &&& (pmentryLevelSize level - 1)).toNat = virt.toNat % 2 ^ pmentryLevelShift level := by
  rw [toNat_and, toNat_levelMask h, Nat.and_two_pow_sub_one_eq_mod]

theorem and_levelMask_eq_zero_iff (virt : BitVec 64) :
    virt &&& (pmentryLevelSize level - 1) = 0 ↔ virt.toNat % 2 ^ pmentryLevelShift level = 0 := by
  rw [← toNat_and_levelMask h, toNat_eq]
  rfl

end

theorem toNat_and_not (x y : BitVec 64) : (x &&& ~~~y).toNat = x.toNat - (x &&& y).toNat := by
  have hdis : (x &&& ~~~y) &&& (x &&& y) = 0#64 := by
    grind
  have hsum := toNat_add_of_and_eq_zero hdis
  have hall : (x &&& ~~~y) + (x &&& y) = x := by
    rw [add_eq_or_of_and_eq_zero _ _ hdis]
    grind
  rw [hall] at hsum
  omega

theorem toNat_and_addressMask (x : BitVec 64) :
    (x &&& AMD64_PML_ADDRESS_MASK).toNat = x.toNat % 2 ^ 52 / 4096 * 4096 := by
  have hmk : AMD64_PML_ADDRESS_MASK =
      BitVec.ofNat 64 (2 ^ 52 - 1) &&& ~~~(BitVec.ofNat 64 (2 ^ 12 - 1)) := by decide
  rw [hmk, ← BitVec.and_assoc, toNat_and_not, toNat_and, toNat_and,
    toNat_and]
  simp only [toNat_ofNat]
  rw [show (2 ^ 52 - 1) % 2 ^ 64 = 2 ^ 52 - 1 by decide,
    show (2 ^ 12 - 1) % 2 ^ 64 = 2 ^ 12 - 1 by decide, Nat.and_two_pow_sub_one_eq_mod,
    Nat.and_two_pow_sub_one_eq_mod]
  omega

section
variable {level : Nat} (h : IsLevel level)
include h

theorem toNat_and_not_levelMask (x : BitVec 64) :
    (x &&& ~~~(pmentryLevelSize level - 1)).toNat =
      x.toNat / 2 ^ pmentryLevelShift level * 2 ^ pmentryLevelShift level := by
  have hdiv := Nat.div_add_mod' x.toNat (2 ^ pmentryLevelShift level)
  rw [toNat_and_not, toNat_and_levelMask h]
  omega

theorem toNat_skip (virt : BitVec 64) :
    ((virt ||| pmentryLevelSize level - 1) + 1).toNat =
      (virt.toNat / 2 ^ pmentryLevelShift level + 1) * 2 ^ pmentryLevelShift level % 2 ^ 64 := by
  have hmk := toNat_levelMask h
  have hnot := toNat_and_not_levelMask h virt
  have hpos := Nat.two_pow_pos (pmentryLevelShift level)
  generalize pmentryLevelSize level - 1 = mask at *
  have hdis : (virt &&& ~~~mask) &&& mask = 0#64 := by
    ext i hi
    simp
  have hor : virt ||| mask = (virt &&& ~~~mask) + mask := by
    rw [add_eq_or_of_and_eq_zero _ _ hdis]
    grind
  have hsum := toNat_add_of_and_eq_zero hdis
  rw [hor, toNat_add, hsum, hnot, Nat.add_mul]
  simp only [ofNat_eq_ofNat, toNat_ofNat]
  omega

theorem val_pteIndex (virt : BitVec 64) :
    (pteIndex virt level).val = virt.toNat / 2 ^ pmentryLevelShift level % 512 := by
  have hmk : PMENTRY_LEVEL_MASK.toNat = 2 ^ 9 - 1 := by decide
  have hshift := h.shift_lt
  simp only [pteIndex]
  rw [toNat_and, hmk, Nat.and_two_pow_sub_one_eq_mod, toNat_ushiftRight,
    Nat.shiftRight_eq_div_pow]

end

/-! ## What an entry maps -/

/-- What an entry found at a level makes of an address. -/
def entryValue (virt : BitVec 64) : Nat × Pmentry → Option (BitVec 64 × Vprot)
  | (level, entry) =>
    if pmentryValid entry then
      some (pmentryAddress entry level + (virt &&& (pmentryLevelSize level - 1)),
        pmentryVprot entry level)
    else none

variable {entry : Pmentry}

theorem entryValue_invalid (h : pmentryValid entry = false) (virt : BitVec 64) (level : Nat) :
    entryValue virt (level, entry) = none := by
  simp [entryValue, h]

theorem entryValue_valid (h : pmentryValid entry = true) (virt : BitVec 64) (level : Nat) :
    entryValue virt (level, entry) =
      some (pmentryAddress entry level + (virt &&& (pmentryLevelSize level - 1)),
        pmentryVprot entry level) := by
  simp [entryValue, h]

section
variable {level : Nat} (h : IsLevel level) {phys : BitVec 64}
include h

theorem toNat_pmentryAddress (entry : Pmentry) :
    (pmentryAddress entry level).toNat =
      entry.toNat % 2 ^ 52 / 2 ^ pmentryLevelShift level * 2 ^ pmentryLevelShift level := by
  rw [pmentryAddress, toNat_and_not_levelMask h, toNat_and_addressMask]
  obtain ⟨level, rfl⟩ := Nat.exists_eq_succ_of_ne_zero h.1.ne'
  rw [pmentryLevelShift_succ, pow_add, ← Nat.div_div_eq_div_mul, ← Nat.div_div_eq_div_mul]
  norm_num

section
variable (hph : phys.toNat % 2 ^ pmentryLevelShift level = 0) (vprot : Vprot)
include hph vprot

theorem pmentryAddress_setup :
    pmentryAddress (pmentrySetup phys vprot level) level = phys &&& AMD64_PML_ADDRESS_MASK := by
  have hflg := (flags_spec vprot h).2.2.2
  have hali : phys &&& ~~~(pmentryLevelSize level - 1) = phys := by
    rw [toNat_eq, toNat_and_not_levelMask h]
    exact Nat.div_mul_cancel (Nat.dvd_of_mod_eq_zero hph)
  rw [pmentryAddress, pmentrySetup_eq, and_or_distrib_right, and_or_distrib_right,
    hflg, BitVec.and_assoc phys, BitVec.and_assoc, BitVec.and_comm _ (~~~_), ← BitVec.and_assoc,
    hali]
  simp

theorem pmentryVprot_setup :
    pmentryVprot (pmentrySetup phys vprot level) level = keptVprot vprot := by
  -- the bit of the memory type is in the address of a large entry, where the block has no bits
  have hpat : phys &&& AMD64_PML_ADDRESS_MASK &&& amd64PatBit level = 0 := by
    rw [amd64PatBit]
    split
    case isFalse => exact and_mask_flag _ _ (by decide)
    rename_i hlar
    have hbit : AMD64_PML_PATL = (pmentryLevelSize level - 1) &&& AMD64_PML_PATL := by
      rcases h.cases with rfl | rfl | rfl | rfl | rfl
      · exact absurd hlar (by decide)
      all_goals decide
    rw [hbit, BitVec.and_assoc, BitVec.and_comm, BitVec.and_assoc, BitVec.and_assoc,
      BitVec.and_comm _ phys, ← BitVec.and_assoc _ phys, BitVec.and_comm _ phys,
      (and_levelMask_eq_zero_iff h phys).mpr hph]
    simp
  rw [← (flags_spec vprot h).1, pmentrySetup_eq phys]
  unfold pmentryVprot amd64PatVprot
  rw [and_flag hpat]
  iterate 5 rw [and_flag (and_mask_flag _ _ (by decide))]

theorem entryValue_setup (hvt : virt.toNat % 2 ^ pmentryLevelShift level = 0)
    (hblk : v.toNat / 2 ^ pmentryLevelShift level = virt.toNat / 2 ^ pmentryLevelShift level)
    (hv : v.toNat % 4096 = 0) :
    entryValue v (level, pmentrySetup phys vprot level) =
      some ((phys + (v - virt)) &&& AMD64_PML_ADDRESS_MASK, keptVprot vprot) := by
  have hdiv := Nat.div_add_mod v.toNat (2 ^ pmentryLevelShift level)
  have hdiv' := Nat.div_add_mod virt.toNat (2 ^ pmentryLevelShift level)
  rw [hblk] at hdiv
  have hoff : (v - virt).toNat = v.toNat % 2 ^ pmentryLevelShift level := by
    rw [toNat_sub_of_le (by rw [le_def]; omega)]
    omega
  rw [entryValue_valid (pmentryValid_setup _ _ h), pmentryAddress_setup h hph,
    pmentryVprot_setup h hph]
  congr 2
  rw [toNat_eq, toNat_add, toNat_and_levelMask h, toNat_and_addressMask,
    toNat_and_addressMask, toNat_add]
  rcases h.cases with rfl | rfl | rfl | rfl | rfl <;>
    simp only [pmentryLevelShift_eq] at * <;> omega

end

theorem entryValue_offset (virt : BitVec 64) (entry : Pmentry) :
    entryValue virt (level, entry) =
      (entryValue (virt &&& ~~~(BitVec.ofNat 64 PAGE_SIZE - 1)) (level, entry)).map fun found =>
        (found.1 + (virt &&& (BitVec.ofNat 64 PAGE_SIZE - 1)), found.2) := by
  rw [ofNat_PAGE_SIZE]
  cases hval : pmentryValid entry with
  | false => rw [entryValue_invalid hval, entryValue_invalid hval, Option.map_none]
  | true =>
    rw [entryValue_valid hval, entryValue_valid hval]
    congr 2
    rw [BitVec.add_assoc]
    congr 1
    rw [toNat_eq, toNat_add, toNat_and_levelMask h, toNat_and_levelMask h,
      toNat_and_levelMask isLevel_one, toNat_and_not_levelMask isLevel_one]
    rcases h.cases with rfl | rfl | rfl | rfl | rfl <;>
      simp only [pmentryLevelShift_eq] at * <;> omega

end

theorem entryValue_split (h : IsLevel level) (h' : IsLevel (level + 1))
    (hval : pmentryValid entry = true) (virt : BitVec 64) :
    entryValue virt (level, pmentrySetup (pmentryAddress entry (level + 1) +
        BitVec.ofNat 64 (pteIndex virt level).val * pmentryLevelSize level)
      (pmentryVprot entry (level + 1)) level) = entryValue virt (level + 1, entry) := by
  have hbs := toNat_pmentryAddress h' entry
  have hlvl : level = 1 ∨ level = 2 ∨ level = 3 ∨ level = 4 := by
    have hle := h'.2
    have hpos := h.1
    omega
  have hst : (BitVec.ofNat 64 (pteIndex virt level).val * pmentryLevelSize level).toNat =
      virt.toNat / 2 ^ pmentryLevelShift level % 512 * 2 ^ pmentryLevelShift level := by
    rw [toNat_mul, toNat_pmentryLevelSize h, toNat_ofNat, val_pteIndex h]
    rcases hlvl with rfl | rfl | rfl | rfl <;>
      simp only [pmentryLevelShift_eq] <;> omega
  have hsum : (pmentryAddress entry (level + 1) +
      BitVec.ofNat 64 (pteIndex virt level).val * pmentryLevelSize level).toNat =
      (pmentryAddress entry (level + 1)).toNat +
        virt.toNat / 2 ^ pmentryLevelShift level % 512 * 2 ^ pmentryLevelShift level := by
    rw [toNat_add, hst, hbs]
    rcases hlvl with rfl | rfl | rfl | rfl <;>
      simp only [pmentryLevelShift_eq] <;> omega
  have hali : (pmentryAddress entry (level + 1) +
      BitVec.ofNat 64 (pteIndex virt level).val * pmentryLevelSize level).toNat %
        2 ^ pmentryLevelShift level = 0 := by
    rw [hsum, hbs]
    rcases hlvl with rfl | rfl | rfl | rfl <;>
      simp only [pmentryLevelShift_eq] <;> omega
  rw [entryValue_valid (pmentryValid_setup _ _ h), entryValue_valid hval,
    pmentryAddress_setup h hali, pmentryVprot_setup h hali, keptVprot_pmentryVprot]
  congr 2
  rw [toNat_eq, toNat_add, toNat_add, toNat_and_levelMask h,
    toNat_and_levelMask h', toNat_and_addressMask, hsum, hbs]
  rcases hlvl with rfl | rfl | rfl | rfl <;>
    simp only [pmentryLevelShift_eq] <;> omega

end Vex.Mm.PageTables
