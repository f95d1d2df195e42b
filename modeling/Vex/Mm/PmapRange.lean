import Vex.Mm.PmapWalk

/-! The loops of the page map. In the two halves of the address space that the tables reach, the
addresses whose walks agree down to a level are those of one block, so each turn of a loop changes
what is mapped on the block it is at and nowhere else. -/

namespace Vex.Mm.PageTables

open Lib.Trie Pmap BitVec

/-! ## Halves of the address space -/

/-- `pmap_user_end`. -/
def userEnd (numLevels : Nat) : Nat :=
  2 ^ (PMENTRY_LVL1_SHIFT + PMENTRY_LEVEL_BITS * numLevels - 1)

/-- An address of one of the halves. -/
def Canonical (numLevels : Nat) (virt : BitVec 64) : Prop :=
  virt.toNat < userEnd numLevels ∨ 2 ^ 64 - userEnd numLevels ≤ virt.toNat

/-- A range within one half. -/
def InHalf (numLevels start size : Nat) : Prop :=
  start + size ≤ userEnd numLevels ∨ 2 ^ 64 - userEnd numLevels ≤ start ∧ start + size ≤ 2 ^ 64

/-- The address of a page of one of the halves. -/
structure IsPage (numLevels : Nat) (virt : BitVec 64) : Prop where
  canonical : Canonical numLevels virt
  aligned : virt.toNat % PAGE_SIZE = 0

/-- The addresses are in what one entry of a level covers. -/
abbrev SameBlock (level : Nat) (v virt : BitVec 64) : Prop :=
  v.toNat / 2 ^ pmentryLevelShift level = virt.toNat / 2 ^ pmentryLevelShift level

variable {n : Nat} {virt v : BitVec 64} {level : Nat}

theorem InHalf.canonical (h : InHalf n start size) (hlow : start ≤ v.toNat)
    (hhi : v.toNat < start + size) : Canonical n v := by
  rcases h with hle | ⟨hge, -⟩
  · exact .inl (hhi.trans_le hle)
  · exact .inr (hge.trans hlow)

section
variable (hn : n = 4 ∨ n = 5)
include hn

/-- The walks of two addresses agree down to a level if they are in one block. -/
theorem agree_iff (hlvl : 0 < level) (hle : level ≤ n) (hv : Canonical n v)
    (hvt : Canonical n virt) :
    Agree n level (pteIndex v) (pteIndex virt) ↔ SameBlock level v virt := by
  unfold SameBlock
  have hIs : ∀ {j}, level ≤ j → j ≤ n → IsLevel j := fun hl hj => ⟨by omega, by omega⟩
  have hup : ∀ {j} (a : Nat), 0 < j → a / 2 ^ pmentryLevelShift (j + 1) =
      a / 2 ^ pmentryLevelShift j / 512 := by
    intro j a hj
    obtain ⟨j, rfl⟩ := Nat.exists_eq_succ_of_ne_zero hj.ne'
    rw [Nat.div_div_eq_div_mul, pmentryLevelShift_succ, pmentryLevelShift_succ,
      show 12 + 9 * (j + 1) = 12 + 9 * j + 9 by omega, pow_add _ _ 9, show 2 ^ 9 = 512 by decide]
  constructor
  · intro hagr
    -- down from the highest level, where the half decides what is above the digit
    have htop : v.toNat / 2 ^ pmentryLevelShift n = virt.toNat / 2 ^ pmentryLevelShift n := by
      have hdig := congrArg Fin.val (hagr n hle le_rfl)
      rw [val_pteIndex (hIs hle le_rfl), val_pteIndex (hIs hle le_rfl)] at hdig
      rcases hn with rfl | rfl <;>
        simp only [Canonical, userEnd, pmentryLevelShift, PMENTRY_LVL1_SHIFT,
          PMENTRY_LEVEL_BITS] at * <;> omega
    obtain ⟨k, hk⟩ := Nat.exists_eq_add_of_le hle
    induction k generalizing level with
    | zero => rw [show level = n by omega, htop]
    | succ k ih =>
      have hnx := ih (Nat.succ_pos level) (by omega) (fun hl => hIs (by omega))
        (hagr.mono (Nat.le_succ _)) (by omega)
      have hdig := congrArg Fin.val (hagr level le_rfl hle)
      rw [val_pteIndex (hIs le_rfl hle), val_pteIndex (hIs le_rfl hle)] at hdig
      rw [hup _ hlvl, hup _ hlvl] at hnx
      omega
  · intro hblk j hj hjn
    obtain ⟨k, rfl⟩ := Nat.exists_eq_add_of_le hj
    rw [Fin.ext_iff, val_pteIndex (hIs hj hjn), val_pteIndex (hIs hj hjn)]
    have hdiv : v.toNat / 2 ^ pmentryLevelShift (level + k) =
        virt.toNat / 2 ^ pmentryLevelShift (level + k) := by
      clear hj hjn
      induction k with
      | zero => exact hblk
      | succ k ih => rw [← Nat.add_assoc, hup _ (by omega), hup _ (by omega), ih]
    rw [hdiv]

end

theorem block_iff (hpos : 0 < size) (hsta : start % size = 0) :
    a / size = start / size ↔ start ≤ a ∧ a < start + size := by
  have hmul := Nat.div_mul_cancel (Nat.dvd_of_mod_eq_zero hsta)
  rw [Nat.div_eq_iff hpos]
  omega

namespace Pmap

variable {p : Pmap} {table : BitVec 64}

section
variable (h : p.WellFormed) (hat : p.WalkAt virt level table)
include h hat

theorem WellFormed.write_block (hlvl : 0 < level) (hvt : Canonical p.numLevels virt)
    (hold : nextTable level (p.tables table (pteIndex virt level)) = none)
    (hnew : nextTable level value = none) (hp' : p' = p.write ⟨table, pteIndex virt level⟩ value) :
    p'.WellFormed ∧ p'.numLevels = p.numLevels ∧ ∀ v, Canonical p.numLevels v → p'.leafOf v =
      if SameBlock level v virt then (level, value) else p.leafOf v := by
  subst hp'
  obtain ⟨hwf, hin, hout⟩ := h.write hat hlvl hold hnew
  refine ⟨hwf, rfl, fun v hv => ?_⟩
  have hiff := agree_iff h.levels hlvl hat.le hv hvt
  split
  case isTrue hblk => exact hin v (hiff.mpr hblk)
  case isFalse hblk => exact hout v fun hagr => hblk (hiff.mp hagr)

theorem WellFormed.leafOf_block (hlvl : 0 < level) (hvt : Canonical p.numLevels virt)
    (hnone : nextTable level (p.tables table (pteIndex virt level)) = none)
    (hv : Canonical p.numLevels v)
    (hblk : SameBlock level v virt) :
    p.leafOf v = (level, p.tables table (pteIndex virt level)) := by
  have hagr := (agree_iff h.levels hlvl hat.le hv hvt).mpr hblk
  have hhere : p.WalkAt v level table := hat.congr (hagr.symm.mono (Nat.le_succ _))
  have hdig : pteIndex v level = pteIndex virt level := hagr level le_rfl hat.le
  rw [leafOf, hhere.found_eq hlvl (by rw [hdig, hnone]), hdig]

theorem WellFormed.map_block (hlvl : IsLevel level) (hcan : Canonical p.numLevels virt)
    (hinv : pmentryValid (p.tables table (pteIndex virt level)) = false)
    (hph : phys.toNat % 2 ^ pmentryLevelShift level = 0) (vprot : Vprot)
    (hvt : virt.toNat % 2 ^ pmentryLevelShift level = 0)
    (hp' : p' = p.write ⟨table, pteIndex virt level⟩ (pmentrySetup phys vprot level)) :
    p'.WellFormed ∧ p'.numLevels = p.numLevels ∧
      (∀ v, IsPage p.numLevels v → SameBlock level v virt →
        p.translate v = none ∧ p'.translate v =
          some ((phys + (v - virt)) &&& AMD64_PML_ADDRESS_MASK, keptVprot vprot)) ∧
      ∀ v, IsPage p.numLevels v → ¬SameBlock level v virt →
        p'.translate v = p.translate v := by
  have hold := nextTable_invalid hinv level
  obtain ⟨hwf, hnum, hlf⟩ := h.write_block hat hlvl.1 hcan hold
    (nextTable_leaf (pmentryLeaf_setup phys vprot hlvl)) hp'
  refine ⟨hwf, hnum, fun v hv hblk => ⟨?_, ?_⟩, fun v hv hblk => ?_⟩
  · rw [Pmap.translate, h.leafOf_block hat hlvl.1 hcan hold hv.canonical hblk]
    exact entryValue_invalid hinv v level
  · rw [Pmap.translate, hlf v hv.canonical, if_pos hblk]
    exact entryValue_setup hlvl hph vprot hvt hblk hv.aligned
  · rw [Pmap.translate, hlf v hv.canonical, if_neg hblk, Pmap.translate]

theorem WellFormed.unmap_block (hlvl : 0 < level) (hcan : Canonical p.numLevels virt)
    (hold : nextTable level (p.tables table (pteIndex virt level)) = none)
    (hp' : p' = p.write ⟨table, pteIndex virt level⟩ PMENTRY_NULL) :
    p'.WellFormed ∧ p'.numLevels = p.numLevels ∧
      (∀ v, Canonical p.numLevels v → SameBlock level v virt →
        p'.leafOf v = (level, PMENTRY_NULL) ∧ p'.translate v = none) ∧
      ∀ v, Canonical p.numLevels v → ¬SameBlock level v virt →
        p'.leafOf v = p.leafOf v := by
  obtain ⟨hwf, hnum, hlf⟩ := h.write_block hat hlvl hcan hold
    (nextTable_invalid pmentryValid_zero level) hp'
  refine ⟨hwf, hnum, fun v hv hblk => ?_, fun v hv hblk => ?_⟩
  · have hle' := (hlf v hv).trans (if_pos hblk)
    refine ⟨hle', ?_⟩
    rw [Pmap.translate, hle']
    exact entryValue_invalid pmentryValid_zero v level
  · exact (hlf v hv).trans (if_neg hblk)

end

end Pmap

/-! ## Mapping a range -/

/-- A leaf of the level can be mapped at the start of the range. -/
structure LeafFits (virt phys size : BitVec 64) (maxLevel level : Nat) : Prop where
  pos : 0 < level
  le : level ≤ max 1 maxLevel
  virt : virt.toNat % 2 ^ pmentryLevelShift level = 0
  phys : phys.toNat % 2 ^ pmentryLevelShift level = 0
  size : 2 ^ pmentryLevelShift level ≤ size.toNat

section
variable {phys size : BitVec 64} (hvt : virt.toNat % PAGE_SIZE = 0)
  (hph : phys.toNat % PAGE_SIZE = 0) (hsz : PAGE_SIZE ≤ size.toNat)
include hvt hph hsz

theorem leafFits_one : LeafFits virt phys size maxLevel 1 :=
  have hone : 2 ^ pmentryLevelShift 1 = PAGE_SIZE := by decide
  ⟨one_pos, le_max_left .., hone ▸ hvt, hone ▸ hph, hone ▸ hsz⟩

theorem pickLeafFrom_spec (hmax : maxLevel ≤ 5) :
    LeafFits virt phys size maxLevel (pickLeafFrom virt phys size maxLevel) := by
  fun_induction pickLeafFrom with
  | case1 level mask hfits =>
    have hlvl : IsLevel (level + 2) := ⟨Nat.succ_pos _, hmax⟩
    obtain ⟨hali, hlar⟩ := hfits
    rw [gt_iff_lt, lt_def, toNat_levelMask hlvl] at hlar
    have hali := or_eq_zero_iff.mp (and_or_distrib_right.symm.trans hali)
    exact ⟨Nat.succ_pos _, le_max_right .., (and_levelMask_eq_zero_iff hlvl _).mp hali.1,
      (and_levelMask_eq_zero_iff hlvl _).mp hali.2, by omega⟩
  | case2 level mask _ ih =>
    have h := ih (by omega)
    exact { h with le := h.le.trans (max_le_max_left 1 (Nat.le_succ _)) }
  | case3 => exact leafFits_one hvt hph hsz

theorem pickLeafLevel_spec (hmax : maxLevel ≤ 5) (vprot : Vprot) :
    LeafFits virt phys size maxLevel (pickLeafLevel maxLevel virt phys size vprot) := by
  rw [pickLeafLevel]
  split
  case isTrue => exact leafFits_one hvt hph hsz
  case isFalse => exact pickLeafFrom_spec hvt hph hsz hmax

end

/-- An address of a range of pages. -/
def Covers (virt size v : BitVec 64) : Prop :=
  virt.toNat ≤ v.toNat ∧ v.toNat < virt.toNat + size.toNat

instance (virt size v : BitVec 64) : Decidable (Covers virt size v) :=
  inferInstanceAs (Decidable (_ ∧ _))

/-- A range starts with the block of the first turn, and goes on with the range of the next. -/
theorem covers_step (hst : step.toNat ≤ size.toNat) (hpos : 0 < step.toNat)
    (hali : virt.toNat % step.toNat = 0) (hend : virt.toNat + size.toNat ≤ 2 ^ 64) :
    (Covers virt size v ↔ v.toNat / step.toNat = virt.toNat / step.toNat ∨
      Covers (virt + step) (size - step) v) ∧
    (v.toNat / step.toNat = virt.toNat / step.toNat → ¬Covers (virt + step) (size - step) v) := by
  have hsub : (size - step).toNat = size.toNat - step.toNat := toNat_sub_of_le (by rwa [le_def])
  rw [block_iff hpos hali, Covers, Covers, toNat_add]
  rcases Nat.lt_or_ge (virt.toNat + step.toNat) (2 ^ 64) with hlt | hge
  · rw [Nat.mod_eq_of_lt hlt]
    omega
  · have heq : virt.toNat + step.toNat = 2 ^ 64 := by omega
    omega

theorem aligned_add {b : BitVec 64} (ha : a.toNat % PAGE_SIZE = 0) (hb : b.toNat % PAGE_SIZE = 0) :
    (a + b).toNat % PAGE_SIZE = 0 := by
  rw [toNat_add]
  simp only [PAGE_SIZE] at *
  omega

theorem pages_sub {step : BitVec 64} (hst : PAGE_SIZE ≤ step.toNat)
    (hle : step.toNat ≤ size.toNat) (hali : step.toNat % PAGE_SIZE = 0)
    (hsz : size.toNat % PAGE_SIZE = 0) : (size - step).toNat % PAGE_SIZE = 0 ∧
      (size - step).toNat / PAGE_SIZE < size.toNat / PAGE_SIZE := by
  rw [toNat_sub_of_le (by rwa [le_def])]
  simp only [PAGE_SIZE] at *
  omega

theorem pmentryLevelSize_pages (hlvl : IsLevel level) :
    PAGE_SIZE ≤ (pmentryLevelSize level).toNat ∧
      (pmentryLevelSize level).toNat % PAGE_SIZE = 0 := by
  rw [toNat_pmentryLevelSize hlvl]
  exact ⟨Nat.pow_le_pow_right Nat.two_pos (Nat.le_add_right 12 _),
    Nat.mod_eq_zero_of_dvd (Nat.pow_dvd_pow 2 (Nat.le_add_right 12 _))⟩

theorem InHalf.step {step : BitVec 64} (h : InHalf n virt.toNat size.toNat) (hn : n = 4 ∨ n = 5)
    (hst : step.toNat ≤ size.toNat) : InHalf n (virt + step).toNat (size - step).toNat := by
  have hsub : (size - step).toNat = size.toNat - step.toNat := toNat_sub_of_le (by rwa [le_def])
  rw [toNat_add]
  rcases hn with rfl | rfl <;>
    simp only [InHalf, userEnd] at * <;> omega

theorem InHalf.le_pow (h : InHalf n start size) (hn : n = 4 ∨ n = 5) : start + size ≤ 2 ^ 64 := by
  rcases hn with rfl | rfl <;>
    simp only [InHalf, userEnd, PMENTRY_LVL1_SHIFT, PMENTRY_LEVEL_BITS] at * <;> omega

/-- The loop of `pmap_map_range` maps the range, where nothing was mapped; a failure leaves the
pages outside it as they were. -/
theorem mapLoop_spec (hmax : maxLevel ≤ 4) (vprot : Vprot) (h : p.WellFormed)
    (hvt : virt.toNat % PAGE_SIZE = 0) (hph : phys.toNat % PAGE_SIZE = 0)
    (hsz : size.toNat % PAGE_SIZE = 0) (hhalf : InHalf p.numLevels virt.toNat size.toNat)
    (htrn : size.toNat / PAGE_SIZE < turns) :
    ∃ r p', mapLoop maxLevel vprot turns virt phys size p = some (r, p') ∧ p'.WellFormed ∧
      p'.numLevels = p.numLevels ∧
      (∀ v, IsPage p.numLevels v → ¬Covers virt size v → p'.translate v = p.translate v) ∧
      (r = .ok () → ∀ v, IsPage p.numLevels v → Covers virt size v → p.translate v = none ∧
        p'.translate v = some ((phys + (v - virt)) &&& AMD64_PML_ADDRESS_MASK,
          keptVprot vprot)) := by
  induction turns generalizing virt phys size p with
  | zero => exact absurd htrn (Nat.not_lt_zero _)
  | succ turns ih =>
    rw [mapLoop]
    split
    case isFalse hdone =>
      have h0 : size.toNat = 0 := by
        exact Nat.eq_zero_of_not_pos hdone
      refine ⟨_, p, rfl, h, rfl, fun _ _ _ => rfl, fun _ v _ hv => ?_⟩
      rw [Covers] at hv
      omega
    rename_i hmr
    have hpg : PAGE_SIZE ≤ size.toNat := by
      exact Nat.le_of_dvd hmr (Nat.dvd_of_mod_eq_zero hsz)
    obtain ⟨hpos, hle, hvirt', hphys', hfits⟩ :=
      pickLeafLevel_spec hvt hph hpg (hmax.trans (by decide)) vprot
    simp only
    generalize pickLeafLevel maxLevel virt phys size vprot = level at *
    have hn := h.levels
    have hlvl : IsLevel level := ⟨hpos, by omega⟩
    have hsize' := toNat_pmentryLevelSize hlvl
    have hcan : Canonical p.numLevels virt := hhalf.canonical le_rfl (by
      omega)
    obtain ⟨ref, l, t, p1, hwk, hsame, -, hend⟩ :=
      pmentryWalk_spec h virt hpos (by omega) true
    rw [hwk]
    rcases hend.cases with ⟨rfl, -⟩ | ⟨rfl, -⟩
    · simp only
      split
      case isTrue =>
        exact ⟨_, p1, rfl, hsame.wellFormed, hsame.numLevels, fun v _ _ => hsame.translate v,
          nofun⟩
      obtain ⟨rfl, hinv⟩ := hend.level_eq ‹_›
      obtain ⟨hwf, hnum, hblk, hel⟩ := hsame.wellFormed.map_block hend.at_table hlvl
        (by rwa [hsame.numLevels]) hinv hphys' vprot hvirt' rfl
      simp only [SameBlock, hsame.numLevels, hsame.translate] at hnum hblk hel
      obtain ⟨hst, hst'⟩ := pmentryLevelSize_pages hlvl
      rw [← hsize'] at hfits hvirt' hphys' hblk hel
      obtain ⟨hrs, hfewer⟩ := pages_sub hst hfits hst' hsz
      have hcv := fun v => @covers_step virt v size (pmentryLevelSize l) hfits
        (by rw [hsize']; exact Nat.two_pow_pos _) hvirt' (hhalf.le_pow hn)
      obtain ⟨r, p', hlp, hwf', hnum', hout, hin⟩ := ih hwf (aligned_add hvt hst')
        (aligned_add hph hst') hrs (by rw [hnum]; exact hhalf.step hn hfits) (by omega)
      rw [hnum] at hnum' hout hin
      refine ⟨r, p', hlp, hwf', hnum', fun v hv hcov => ?_, fun hr v hv hcov => ?_⟩
      · have hnot := mt (hcv v).1.mpr hcov
        rw [hout v hv fun hc => hnot (.inr hc), hel v hv fun hb => hnot (.inl hb)]
      rcases (hcv v).1.mp hcov with hhere | hrs
      · obtain ⟨hbef, haft⟩ := hblk v hv hhere
        exact ⟨hbef, by rw [hout v hv ((hcv v).2 hhere), haft]⟩
      obtain ⟨hnone, hsm⟩ := hin hr v hv hrs
      rw [hel v hv fun hb => (hcv v).2 hb hrs] at hnone
      refine ⟨hnone, hsm.trans ?_⟩
      congr 3
      bv_omega
    · exact ⟨_, p1, rfl, hsame.wellFormed, hsame.numLevels, fun v _ _ => hsame.translate v,
        nofun⟩

/-! ## Unmapping a range -/

/-- The walk for an address ends where nothing is mapped up to the top of the address space. -/
def Pmap.HoleToTop (p : Pmap) (virt : BitVec 64) : Prop :=
  pmentryValid (p.leafOf virt).2 = false ∧
    (virt ||| pmentryLevelSize (p.leafOf virt).1 - 1) + 1 = 0

instance (p : Pmap) (virt : BitVec 64) : Decidable (p.HoleToTop virt) :=
  inferInstanceAs (Decidable (_ ∧ _))

/-- What unmapping the pages from one address up to another does. -/
structure Unmapped (p p' : Pmap) (low high : Nat) (result : Except Errno Unit) : Prop where
  wellFormed : p'.WellFormed
  numLevels : p'.numLevels = p.numLevels
  outside : ∀ v, IsPage p.numLevels v → ¬(low ≤ v.toNat ∧ v.toNat < high) →
    p'.translate v = p.translate v
  inside : result = .ok () → ∀ v, IsPage p.numLevels v → low ≤ v.toNat → v.toNat < high →
    p'.translate v = none

/-- A turn that leaves nothing mapped up to an address, before the rest of the range. -/
theorem Unmapped.prepend (h : Unmapped p1 p' mid high result) (hnum : p1.numLevels = p.numLevels)
    (hle : low ≤ mid) (hout : ∀ v, IsPage p.numLevels v → ¬(low ≤ v.toNat ∧ v.toNat < high) →
      p1.translate v = p.translate v)
    (hin : ∀ v, IsPage p.numLevels v → low ≤ v.toNat → v.toNat < mid → v.toNat < high →
      p1.translate v = none) : Unmapped p p' low high result where
  wellFormed := h.wellFormed
  numLevels := h.numLevels.trans hnum
  outside v hv hnot := by
    rw [h.outside v (hnum ▸ hv) (by omega), hout v hv hnot]
  inside hr v hv hlow hhi := by
    rcases Nat.lt_or_ge v.toNat mid with hlt | hge
    · rw [h.outside v (hnum ▸ hv) (by omega), hin v hv hlow hlt hhi]
    · exact h.inside hr v (hnum ▸ hv) hge hhi

theorem Pmap.WellFormed.leafOf_le {p : Pmap} (h : p.WellFormed) (v : BitVec 64) :
    (p.leafOf v).1 ≤ p.numLevels := by
  obtain ⟨l, t, hat, hl, hnone⟩ := h.tree.exists_at (pteIndex v)
  rw [leafOf, hat.found_eq hl hnone]
  exact hat.le

theorem turns_lt (hpgs : pages' < pages) (hl : l ≤ n) (htrn : (n + 1) * pages ≤ turns) :
    (n + 1) * pages' + l < turns := by
  have hmul := Nat.mul_le_mul_left (n + 1) hpgs
  rw [Nat.mul_succ] at hmul
  omega

theorem blockEnd_spec (hlvl : IsLevel level) (hvt : virt.toNat % PAGE_SIZE = 0) :
    let blockEnd := (virt.toNat / 2 ^ pmentryLevelShift level + 1) * 2 ^ pmentryLevelShift level
    blockEnd % PAGE_SIZE = 0 ∧ virt.toNat + PAGE_SIZE ≤ blockEnd ∧ blockEnd ≤ 2 ^ 64 := by
  rcases hlvl.cases with rfl | rfl | rfl | rfl | rfl <;>
    simp only [PAGE_SIZE, pmentryLevelShift, PMENTRY_LVL1_SHIFT, PMENTRY_LEVEL_BITS] at * <;> omega

theorem div_eq_of_lt_blockEnd (hpos : 0 < size) (hle : start ≤ a)
    (hlt : a < (start / size + 1) * size) : a / size = start / size := by
  rw [Nat.div_eq_iff hpos]
  have hmul := Nat.div_mul_le_self start size
  rw [Nat.add_mul] at hlt
  omega

/-- The loop of `pmap_unmap_range_noflush` before a turn, unless the last page of the range is in a
hole that reaches the top of the address space. -/
structure Ready (last virt : BitVec 64) (p : Pmap) : Prop where
  wellFormed : p.WellFormed
  aligned : virt.toNat % PAGE_SIZE = 0
  lastAligned : last.toNat % PAGE_SIZE = 0
  half : virt.toNat < last.toNat → InHalf p.numLevels virt.toNat (last.toNat - virt.toNat)
  top : ¬p.HoleToTop (last - 1)

/-- A turn of the loop, with the end of its walk. -/
structure Turn (last virt : BitVec 64) (p : Pmap) (level : Nat) (table : BitVec 64) : Prop
    extends Ready last virt p where
  before : virt.toNat < last.toNat
  at_table : p.WalkAt virt level table
  isLevel : IsLevel level
  nowhere : nextTable level (p.tables table (pteIndex virt level)) = none

namespace Turn

variable {last table : BitVec 64} {p : Pmap} (h : Turn last virt p level table)
include h

theorem canonical : Canonical p.numLevels virt :=
  (h.half h.before).canonical le_rfl (by have := h.before; omega)

theorem toNat_last : (last - 1).toNat = last.toNat - 1 := by
  have hbef := h.before
  exact toNat_sub_of_le (by rw [le_def]; exact Nat.succ_le_of_lt (by omega))

theorem canonical_last : Canonical p.numLevels (last - 1) := by
  have hbef := h.before
  have hlast := h.toNat_last
  exact (h.half hbef).canonical (by omega) (by omega)

theorem leafOf_block (hv : Canonical p.numLevels v)
    (hblk : SameBlock level v virt) :
    p.leafOf v = (level, p.tables table (pteIndex virt level)) :=
  h.wellFormed.leafOf_block h.at_table h.isLevel.1 h.canonical h.nowhere hv hblk

theorem pages_lt (hmid : mid % PAGE_SIZE = 0) (hle : virt.toNat + PAGE_SIZE ≤ mid) :
    (last.toNat - mid) / PAGE_SIZE < (last.toNat - virt.toNat) / PAGE_SIZE := by
  have hbef := h.before
  have hali := h.aligned
  have hlast := h.lastAligned
  simp only [PAGE_SIZE] at *
  omega

/-- Nothing is mapped in the block: the next turn starts after it. -/
theorem skip (hinv : pmentryValid (p.tables table (pteIndex virt level)) = false) :
    ((virt ||| pmentryLevelSize level - 1) + 1).toNat =
        (virt.toNat / 2 ^ pmentryLevelShift level + 1) * 2 ^ pmentryLevelShift level ∧
      Ready last ((virt ||| pmentryLevelSize level - 1) + 1) p := by
  have hpos := Nat.two_pow_pos (pmentryLevelShift level)
  have hbef := h.before
  have hlast := h.toNat_last
  obtain ⟨hpg, -, hle⟩ := blockEnd_spec h.isLevel h.aligned
  have hnowrap : (virt.toNat / 2 ^ pmentryLevelShift level + 1) * 2 ^ pmentryLevelShift level <
      2 ^ 64 := by
    refine Nat.lt_of_le_of_ne hle fun hwp => h.top ?_
    have hblk := div_eq_of_lt_blockEnd hpos (show virt.toNat ≤ (last - 1).toNat by omega)
      (by rw [hwp]; exact (last - 1).isLt)
    have hlf := h.leafOf_block h.canonical_last hblk
    refine ⟨by rw [hlf]; exact hinv, ?_⟩
    rw [hlf, toNat_eq, toNat_skip h.isLevel, hblk, hwp]
    rfl
  have hsk := toNat_skip h.isLevel virt
  rw [Nat.mod_eq_of_lt hnowrap] at hsk
  refine ⟨hsk, h.wellFormed, by rw [hsk]; exact hpg, h.lastAligned, fun hlt => ?_, h.top⟩
  have hge := (blockEnd_spec h.isLevel h.aligned).2.1
  exact (h.half hbef).imp (fun hle => by omega) fun hge => by omega

/-- The whole block is in the range: it is unmapped. -/
theorem clear (hali : virt.toNat % 2 ^ pmentryLevelShift level = 0)
    (hfits : virt.toNat + 2 ^ pmentryLevelShift level ≤ last.toNat)
    (hp' : p' = p.write ⟨table, pteIndex virt level⟩ PMENTRY_NULL) :
    (virt + (pmentryLevelSize level - 1 + 1)).toNat = virt.toNat + 2 ^ pmentryLevelShift level ∧
      Ready last (virt + (pmentryLevelSize level - 1 + 1)) p' ∧ p'.numLevels = p.numLevels ∧
      ∀ v, Canonical p.numLevels v → p'.translate v =
        if virt.toNat ≤ v.toNat ∧ v.toNat < virt.toNat + 2 ^ pmentryLevelShift level then none
        else p.translate v := by
  have hpos := Nat.two_pow_pos (pmentryLevelShift level)
  have hblockEnd : (virt.toNat / 2 ^ pmentryLevelShift level + 1) *
      2 ^ pmentryLevelShift level = virt.toNat + 2 ^ pmentryLevelShift level := by
    rw [Nat.add_mul, one_mul, Nat.div_mul_cancel (Nat.dvd_of_mod_eq_zero hali)]
  have hadvance : (virt + (pmentryLevelSize level - 1 + 1)).toNat =
      virt.toNat + 2 ^ pmentryLevelShift level := by
    rw [sub_add_cancel, toNat_add, toNat_pmentryLevelSize h.isLevel]
    exact Nat.mod_eq_of_lt (by omega)
  obtain ⟨hpg, -, -⟩ := blockEnd_spec h.isLevel h.aligned
  rw [hblockEnd] at hpg
  obtain ⟨hwf, hnum, hblk, hel⟩ :=
    h.wellFormed.unmap_block h.at_table h.isLevel.1 h.canonical h.nowhere hp'
  refine ⟨hadvance, ⟨hwf, by rw [hadvance]; exact hpg, h.lastAligned, fun hmr => ?_, ?_⟩, hnum,
    fun v hv => ?_⟩
  · rw [hnum]
    exact (h.half h.before).imp (fun hle => by omega) fun hge => by omega
  · rcases Decidable.em (SameBlock level (last - 1) virt) with hsame | hoth
    · -- the block ends before the range does
      rintro ⟨-, h0⟩
      rw [(hblk _ h.canonical_last hsame).1, toNat_eq, toNat_skip h.isLevel, hsame,
        Nat.mod_eq_of_lt (by omega)] at h0
      exact absurd h0 (by simp)
    · rw [Pmap.HoleToTop, hel _ h.canonical_last hoth]
      exact h.top
  · split
    case isTrue hin => exact (hblk v hv ((block_iff hpos hali).mpr hin)).2
    case isFalse hout =>
      rw [Pmap.translate, hel v hv fun hb => hout ((block_iff hpos hali).mp hb), Pmap.translate]

end Turn

/-- A large leaf that sticks out of the range is split, or memory is short. -/
theorem Turn.split (h : Turn last virt p (level + 1) table) (hlvl : 0 < level)
    (hval : pmentryValid (p.tables table (pteIndex virt (level + 1))) = true) :
    ∃ r p', splitLargeNolock p ⟨table, pteIndex virt (level + 1)⟩ (level + 1) = (r, p') ∧
      Pmap.SameMap p p' ∧ (r = .error .ENOMEM ∨
        r = .ok () ∧ Ready last virt p' ∧ (p'.leafOf virt).1 = level) := by
  obtain ⟨r, p', hspl, hsame, hr, hlf⟩ :=
    splitLargeNolock_spec h.wellFormed h.at_table hlvl h.nowhere hval
  refine ⟨r, p', hspl, hsame, ?_⟩
  rcases hr with ⟨rfl, -, -⟩ | ⟨rfl, t, hat, hnone⟩
  · exact .inl rfl
  refine .inr ⟨rfl, ⟨hsame.wellFormed, h.aligned, h.lastAligned, ?_, ?_⟩, ?_⟩
  · rw [hsame.numLevels]
    exact h.half
  · rcases hlf (last - 1) with heq | hvalid'
    · rw [Pmap.HoleToTop, heq]
      exact h.top
    · rintro ⟨hinv, -⟩
      rw [hvalid'] at hinv
      cases hinv
  · rw [leafOf, hat.found_eq hlvl hnone]

/-- The loop of `pmap_unmap_range_noflush` unmaps the range, or runs out of memory for a split. -/
theorem unmapLoop_spec (h : Ready last virt p)
    (htrn : (p.numLevels + 1) * ((last.toNat - virt.toNat) / PAGE_SIZE) + (p.leafOf virt).1 <
      turns) :
    ∃ r p', unmapLoop last turns virt p = some (r, p') ∧
      Unmapped p p' virt.toNat last.toNat r := by
  induction turns generalizing virt p with
  | zero => exact absurd htrn (Nat.not_lt_zero _)
  | succ turns ih =>
    rw [unmapLoop]
    split
    case isFalse hdone =>
      rw [lt_def] at hdone
      exact ⟨_, p, rfl, h.wellFormed, rfl, fun _ _ _ => rfl, fun _ v _ hlow hhi => by omega⟩
    rename_i hmr
    rw [lt_def] at hmr
    obtain ⟨ref, l, t, hwk, hat, hlvl, hnone, hlf, href⟩ := pmentryWalk_page h.wellFormed virt
    have htn : Turn last virt p l t := ⟨h, hmr, hat, hlvl, hnone⟩
    have hpos := Nat.two_pow_pos (pmentryLevelShift l)
    obtain ⟨hpg, hnx, -⟩ := blockEnd_spec hlvl h.aligned
    have hsk : pmentryValid (p.tables t (pteIndex virt l)) = false →
        ∃ r p', unmapLoop last turns ((virt ||| pmentryLevelSize l - 1) + 1) p =
          some (r, p') ∧ Unmapped p p' virt.toNat last.toNat r := by
      intro hinv
      obtain ⟨hto, hrdy⟩ := htn.skip hinv
      obtain ⟨r, p', hlp, humap⟩ := ih hrdy
        (turns_lt (hto ▸ htn.pages_lt hpg hnx) (h.wellFormed.leafOf_le _) (by omega))
      refine ⟨r, p', hlp, humap.prepend rfl (by omega) (fun _ _ _ => rfl) ?_⟩
      intro v hv hlow hmid _
      rw [hto] at hmid
      rw [Pmap.translate, htn.leafOf_block hv.canonical (div_eq_of_lt_blockEnd hpos hlow hmid)]
      exact entryValue_invalid hinv v l
    rw [hwk]
    rcases href with rfl | ⟨rfl, hinv⟩
    · simp only
      split
      case isTrue hinv => exact hsk (by simpa [entry] using hinv)
      rename_i hval
      have hval : pmentryValid (p.tables t (pteIndex virt l)) = true := by
        simpa [entry] using hval
      have hwholeIff : virt &&& (pmentryLevelSize l - 1) = 0 ∧
          last - virt > pmentryLevelSize l - 1 ↔
          virt.toNat % 2 ^ pmentryLevelShift l = 0 ∧
            virt.toNat + 2 ^ pmentryLevelShift l ≤ last.toNat := by
        rw [and_levelMask_eq_zero_iff hlvl, gt_iff_lt, lt_def, toNat_levelMask hlvl,
          toNat_sub_of_le (by rw [le_def]; omega)]
        omega
      split
      case isTrue hwho =>
        obtain ⟨hali, hfits⟩ := hwholeIff.mp hwho
        obtain ⟨hto, hrdy, hnum, htrl⟩ := htn.clear hali hfits rfl
        obtain ⟨hst, hst'⟩ := pmentryLevelSize_pages hlvl
        rw [toNat_pmentryLevelSize hlvl] at hst
        have hmid := hrdy.aligned
        rw [hto] at hmid
        have hle := hrdy.wellFormed.leafOf_le (virt + (pmentryLevelSize l - 1 + 1))
        obtain ⟨r, p', hlp, humap⟩ := ih hrdy (by
          rw [hnum, hto]
          exact turns_lt (htn.pages_lt hmid (by omega)) hle (by omega))
        refine ⟨r, p', hlp, humap.prepend hnum (by omega) ?_ ?_⟩
        · intro v hv hnot
          exact (htrl v hv.canonical).trans (if_neg (by omega))
        · intro v hv hlow hmid _
          exact (htrl v hv.canonical).trans (if_pos (by omega))
      rename_i hpart
      obtain ⟨l, rfl⟩ := Nat.exists_eq_succ_of_ne_zero hlvl.1.ne'
      -- a page is never split
      have hl : 0 < l := by
        refine Nat.pos_of_ne_zero fun h0 => hpart (hwholeIff.mpr ?_)
        subst h0
        rw [show 2 ^ pmentryLevelShift (Nat.succ 0) = PAGE_SIZE by decide]
        have hali := h.aligned
        have hlast := h.lastAligned
        simp only [PAGE_SIZE] at *
        omega
      obtain ⟨r1, p1, hspl, hsame, hr1⟩ := htn.split hl hval
      rw [hspl]
      rcases hr1 with rfl | ⟨rfl, hrdy, hleaf1⟩
      · exact ⟨_, p1, rfl, hsame.wellFormed, hsame.numLevels,
          fun v _ _ => hsame.translate v, by rintro ⟨⟩⟩
      rw [hlf] at htrn
      obtain ⟨r, p', hlp, humap⟩ := ih hrdy
        (by rw [hsame.numLevels]; simp only at htrn; omega)
      refine ⟨r, p', hlp, humap.wellFormed,
        humap.numLevels.trans hsame.numLevels, fun v hv hnot => ?_,
        fun hr v hv => humap.inside hr v (hsame.numLevels ▸ hv)⟩
      rw [humap.outside v (hsame.numLevels ▸ hv) hnot, hsame.translate]
    · exact hsk hinv

end Vex.Mm.PageTables
