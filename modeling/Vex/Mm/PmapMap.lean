import Vex.Lib.Run
import Vex.Mm.PmapRange

/-! The page map refines a partial function from virtual pages to physical pages with their
protections. Every operation changes it on its own pages only, whatever tables it needs; the one
exception is unmapping a range at the top of the address space, where the end of the range, or the
end of a hole in it, wraps around to zero. -/

namespace Vex.Mm.PageTables

open Lib Pmap BitVec

variable {p : Pmap} {virt : BitVec 64}

/-! ## Single pages -/

/-- The valid entry of a single page, where the walk to it ends. -/
structure PageAt (p : Pmap) (virt t : BitVec 64) (r : Except Errno EntryRef) : Prop where
  eq : r = .ok ⟨t, pteIndex virt 1⟩
  walk : p.WalkAt virt 1 t
  valid : pmentryValid (p.tables t (pteIndex virt 1)) = true

theorem walkPageLoop_spec (h : p.WellFormed) (htrn : (p.leafOf virt).1 ≤ turns) :
    ∃ r p', walkPageLoop virt turns p = some (r, p') ∧ Pmap.SameMap p p' ∧
      ((∃ e, r = .error e) ∨ ∃ t, PageAt p' virt t r) := by
  induction turns generalizing p with
  | zero =>
    obtain ⟨l, t, hat, hl, hnone⟩ := h.tree.exists_at (pteIndex virt)
    rw [leafOf, hat.found_eq hl hnone] at htrn
    exact absurd htrn (Nat.not_le_of_lt hl)
  | succ turns ih =>
    obtain ⟨ref, l, t, hwk, hat, hlvl, hnone, hlf, href⟩ := pmentryWalk_page h virt
    rw [walkPageLoop, hwk]
    rcases href with rfl | ⟨rfl, -⟩
    · simp only
      split
      case isTrue => exact ⟨_, p, rfl, h.sameMap, .inl ⟨_, rfl⟩⟩
      rename_i hval
      have hval : pmentryValid (p.tables t (pteIndex virt l)) = true := by
        simpa [entry] using hval
      split
      case isTrue hlast =>
        subst hlast
        exact ⟨_, p, rfl, h.sameMap, .inr ⟨t, rfl, hat, hval⟩⟩
      rename_i hlar
      obtain ⟨l, rfl⟩ := Nat.exists_eq_succ_of_ne_zero hlvl.1.ne'
      have hl : 0 < l := Nat.pos_of_ne_zero fun h0 => hlar (by rw [h0])
      obtain ⟨r1, p1, hspl, hsame, hr1, -⟩ := splitLargeNolock_spec h hat hl hnone hval
      rw [hspl]
      rcases hr1 with ⟨rfl, -, -⟩ | ⟨rfl, t1, hat1, hnone1⟩
      · exact ⟨_, p1, rfl, hsame, .inl ⟨_, rfl⟩⟩
      have hleaf1 : (p1.leafOf virt).1 = l := by
        rw [leafOf, hat1.found_eq hl hnone1]
      rw [hlf] at htrn
      obtain ⟨r, p', hlp, hsm', hr⟩ := ih hsame.wellFormed
        (by rw [hleaf1]; exact Nat.le_of_succ_le_succ htrn)
      exact ⟨r, p', hlp, hsame.trans hsm', hr⟩
    · exact ⟨_, p, rfl, h.sameMap, .inl ⟨_, rfl⟩⟩

theorem pmentryWalkPageNolock_spec (h : p.WellFormed) (virt : BitVec 64) :
    ∃ r p', pmentryWalkPageNolock p virt = some (r, p') ∧ Pmap.SameMap p p' ∧
      ((∃ e, r = .error e) ∨ ∃ t, PageAt p' virt t r) :=
  walkPageLoop_spec h (h.leafOf_le virt)

theorem page_block_iff (hv : IsPage n v) (hvt : IsPage n virt) :
    SameBlock 1 v virt ↔ v = virt := by
  have hone : 2 ^ pmentryLevelShift 1 = PAGE_SIZE := by decide
  unfold SameBlock
  have hv := hv.aligned
  have hvt := hvt.aligned
  rw [hone, toNat_eq]
  simp only [PAGE_SIZE] at *
  omega

/-! ## The operations -/

inductive PmapOp
  | map (virt phys : BitVec 64) (vprot : Vprot)
  | mapRange (virt phys size : BitVec 64) (vprot : Vprot)
  | unmap (virt : BitVec 64)
  | unmapRange (virt size : BitVec 64)
  | patch (virt : BitVec 64) (vprot : Vprot)
  deriving DecidableEq

/-- One operation; none if it does not return. -/
def pmapStep (maxLeafLevel : Nat) (p : Pmap) : PmapOp → Option (Except Errno Unit × Pmap)
  | .map virt phys vprot => some (pmapMap p virt phys vprot)
  | .mapRange virt phys size vprot => pmapMapRange maxLeafLevel p virt phys size vprot
  | .unmap virt => pmapUnmapNoflush p virt
  | .unmapRange virt size => pmapUnmapRangeNoflush p virt size
  | .patch virt vprot => pmapPatchNoflush p virt vprot

/-- What is mapped, page by page: the physical page and the protection. -/
abbrev PageMap := BitVec 64 → Option (BitVec 64 × Vprot)

namespace PmapOp

/-- The pages of an operation. -/
def Covers : PmapOp → BitVec 64 → Prop
  | .map virt _ _, v | .unmap virt, v | .patch virt _, v => v = virt
  | .mapRange virt _ size _, v | .unmapRange virt size, v => PageTables.Covers virt size v

instance : ∀ (op : PmapOp) (v : BitVec 64), Decidable (op.Covers v)
  | .map virt _ _, v | .unmap virt, v | .patch virt _, v => inferInstanceAs (Decidable (v = virt))
  | .mapRange virt _ size _, v | .unmapRange virt size, v =>
    inferInstanceAs (Decidable (PageTables.Covers virt size v))

def isRange : PmapOp → Bool
  | .mapRange .. | .unmapRange .. => true
  | _ => false

/-- What the operation makes of one of its pages. -/
def effect (v : BitVec 64) (old : Option (BitVec 64 × Vprot)) :
    PmapOp → Option (BitVec 64 × Vprot)
  | .map _ phys vprot => some (phys &&& AMD64_PML_ADDRESS_MASK, keptVprot vprot)
  | .mapRange virt phys _ vprot =>
    some ((phys + (v - virt)) &&& AMD64_PML_ADDRESS_MASK, keptVprot vprot)
  | .unmap _ | .unmapRange .. => none
  | .patch _ vprot => old.map fun found => (found.1, keptVprot vprot)

/-- Mapping takes pages that are not mapped, unmapping and changing a page one that is. -/
def Applies (numLevels : Nat) (op : PmapOp) (m : PageMap) : Prop :=
  match op with
  | .map .. | .mapRange .. => ∀ v, IsPage numLevels v → op.Covers v → m v = none
  | .unmap virt | .patch virt _ => m virt ≠ none
  | .unmapRange .. => True

/-- Arguments of whole pages, within one half of the address space. -/
def Within (numLevels : Nat) : PmapOp → Prop
  | .map virt phys _ => IsPage numLevels virt ∧ phys.toNat % PAGE_SIZE = 0
  | .mapRange virt phys size _ => virt.toNat % PAGE_SIZE = 0 ∧ phys.toNat % PAGE_SIZE = 0 ∧
      size.toNat % PAGE_SIZE = 0 ∧ InHalf numLevels virt.toNat size.toNat
  | .unmap virt | .patch virt _ => IsPage numLevels virt
  | .unmapRange virt size => virt.toNat % PAGE_SIZE = 0 ∧ size.toNat % PAGE_SIZE = 0 ∧
      InHalf numLevels virt.toNat size.toNat

end PmapOp

/-- What an operation means on the map: a success changes its pages as it should and no other, a
failure nothing, of a range nothing outside. -/
def MapStep (numLevels : Nat) (m : PageMap) (a : PmapOp × Except Errno Unit) (m' : PageMap) :
    Prop :=
  match a.2 with
  | .ok () => a.1.Applies numLevels m ∧ ∀ v, IsPage numLevels v →
      m' v = if a.1.Covers v then a.1.effect v (m v) else m v
  | .error _ => ∀ v, IsPage numLevels v → (a.1.isRange = true → ¬a.1.Covers v) → m' v = m v

/-- An operation that keeps the tables well formed and means what it should. -/
structure Refines (p : Pmap) (op : PmapOp) (r : Except Errno Unit) (p' : Pmap) : Prop where
  wellFormed : p'.WellFormed
  numLevels : p'.numLevels = p.numLevels
  mapStep : MapStep p.numLevels p.translate (op, r) p'.translate

theorem Pmap.SameMap.refines_error (h : Pmap.SameMap p p') (op : PmapOp) (e : Errno) :
    Refines p op (.error e) p' :=
  ⟨h.wellFormed, h.numLevels, fun v _ _ => h.translate v⟩

theorem pageStart_of_aligned (h : phys.toNat % PAGE_SIZE = 0) : pageStart phys = phys := by
  rw [pageStart, ofNat_PAGE_SIZE, toNat_eq, toNat_and_not_levelMask isLevel_one]
  exact Nat.div_mul_cancel (Nat.dvd_of_mod_eq_zero h)

theorem pageAligned_iff (a : BitVec 64) : PageAligned a ↔ a.toNat % PAGE_SIZE = 0 := by
  rw [PageAligned, ofNat_PAGE_SIZE, and_levelMask_eq_zero_iff isLevel_one]
  rfl

theorem pageAligned_or (a b : BitVec 64) :
    PageAligned (a ||| b) ↔ PageAligned a ∧ PageAligned b := by
  rw [PageAligned, and_or_distrib_right]
  exact or_eq_zero_iff

variable {vprot : Vprot}

theorem pmapMap_refines (h : p.WellFormed) (hin : (PmapOp.map virt phys vprot).Within p.numLevels) :
    ∃ r p', pmapMap p virt phys vprot = (r, p') ∧ Refines p (.map virt phys vprot) r p' := by
  obtain ⟨hvt, hph⟩ := hin
  obtain ⟨ref, l, t, p1, hwk, hsame, -, hend⟩ :=
    pmentryWalk_spec h virt one_pos (by have := h.levels; omega) true
  rw [pmapMap, hwk, pageStart_of_aligned hph]
  rcases hend.cases with ⟨rfl, -⟩ | ⟨rfl, -⟩
  · simp only
    split
    case isTrue => exact ⟨_, p1, rfl, hsame.refines_error _ _⟩
    obtain ⟨rfl, hinv⟩ := hend.level_eq ‹_›
    obtain ⟨hwf, hnum, hblk, hel⟩ := hsame.wellFormed.map_block hend.at_table isLevel_one
      (by rw [hsame.numLevels]; exact hvt.canonical) hinv hph vprot hvt.aligned rfl
    simp only [hsame.numLevels, hsame.translate] at hnum hblk hel
    refine ⟨_, _, rfl, hwf, hnum, fun v hv hcov => ?_, fun v hv => ?_⟩
    · exact (hblk v hv ((page_block_iff hv hvt).mpr hcov)).1
    split
    case isTrue hcov =>
      rw [(hblk v hv ((page_block_iff hv hvt).mpr hcov)).2]
      obtain rfl : v = virt := hcov
      simp [PmapOp.effect]
    case isFalse hcov => exact hel v hv fun hb => hcov ((page_block_iff hv hvt).mp hb)
  · exact ⟨_, p1, rfl, hsame.refines_error _ _⟩

theorem pmapMapRange_refines (hmax : maxLevel ≤ 4) (h : p.WellFormed)
    (hin : (PmapOp.mapRange virt phys size vprot).Within p.numLevels) :
    ∃ r p', pmapMapRange maxLevel p virt phys size vprot = some (r, p') ∧
      Refines p (.mapRange virt phys size vprot) r p' := by
  obtain ⟨hvt, hph, hsz, hhalf⟩ := hin
  have hali : PageAligned (virt ||| phys ||| size) := by
    rw [pageAligned_or, pageAligned_or, pageAligned_iff, pageAligned_iff, pageAligned_iff]
    exact ⟨⟨hvt, hph⟩, hsz⟩
  obtain ⟨r, p', hlp, hwf, hnum, hout, hok⟩ :=
    mapLoop_spec hmax vprot h hvt hph hsz hhalf (Nat.lt_succ_self _)
  refine ⟨r, p', by rw [pmapMapRange, if_pos hali, hlp], hwf, hnum, ?_⟩
  cases r with
  | error e => exact fun v hv hcov => hout v hv (hcov rfl)
  | ok =>
    refine ⟨fun v hv hcov => (hok rfl v hv hcov).1, fun v hv => ?_⟩
    split
    case isTrue hcov => exact (hok rfl v hv hcov).2
    case isFalse hcov => exact hout v hv hcov

theorem pmapUnmapNoflush_refines (h : p.WellFormed) (hvt : (PmapOp.unmap virt).Within p.numLevels)
    :
    ∃ r p', pmapUnmapNoflush p virt = some (r, p') ∧ Refines p (.unmap virt) r p' := by
  obtain ⟨r, p1, hwk, hsame, ⟨e, rfl⟩ | ⟨t, rfl, hat, hval⟩⟩ :=
    pmentryWalkPageNolock_spec h virt
  · exact ⟨_, p1, by rw [pmapUnmapNoflush, hwk], hsame.refines_error _ _⟩
  have hnone := nextTable_one (p1.tables t (pteIndex virt 1))
  obtain ⟨hwf, hnum, hblk, hel⟩ := hsame.wellFormed.unmap_block hat one_pos
    (by rw [hsame.numLevels]; exact hvt.canonical) hnone rfl
  rw [hsame.numLevels] at hnum hblk hel
  refine ⟨.ok (), _, by rw [pmapUnmapNoflush, hwk], hwf, hnum, ?_, fun v hv => ?_⟩
  · change p.translate virt ≠ none
    rw [← hsame.translate, translate_eq hat one_pos hnone, entryValue_valid hval]
    exact Option.some_ne_none _
  split
  case isTrue hcov =>
    exact (hblk v hv.canonical ((page_block_iff hv hvt).mpr hcov)).2
  case isFalse hcov =>
    rw [Pmap.translate, hel v hv.canonical fun hb => hcov ((page_block_iff hv hvt).mp hb)]
    exact hsame.translate v

theorem pmapPatchNoflush_refines (h : p.WellFormed)
    (hvt : (PmapOp.patch virt vprot).Within p.numLevels) :
    ∃ r p', pmapPatchNoflush p virt vprot = some (r, p') ∧
      Refines p (.patch virt vprot) r p' := by
  obtain ⟨r, p1, hwk, hsame, ⟨e, rfl⟩ | ⟨t, rfl, hat, hval⟩⟩ :=
    pmentryWalkPageNolock_spec h virt
  · exact ⟨_, p1, by rw [pmapPatchNoflush, hwk], hsame.refines_error _ _⟩
  have hnone := nextTable_one (p1.tables t (pteIndex virt 1))
  have hmap : p.translate virt = some (pmentryAddress (p1.tables t (pteIndex virt 1)) 1,
      pmentryVprot (p1.tables t (pteIndex virt 1)) 1) := by
    rw [← hsame.translate, translate_eq hat one_pos hnone, entryValue_valid hval,
      (and_levelMask_eq_zero_iff isLevel_one virt).mpr hvt.aligned]
    simp
  -- the entry keeps its address
  have hadr := toNat_pmentryAddress isLevel_one (p1.tables t (pteIndex virt 1))
  generalize hphys' : pmentryAddress (p1.tables t (pteIndex virt 1)) 1 = phys
    at hmap hadr
  have hph : phys.toNat % 2 ^ pmentryLevelShift 1 = 0 := by
    rw [hadr]
    exact Nat.mul_mod_left ..
  have hmk : phys &&& AMD64_PML_ADDRESS_MASK = phys := by
    have hone : 2 ^ pmentryLevelShift 1 = 4096 := by decide
    rw [hone] at hadr
    rw [toNat_eq, toNat_and_addressMask]
    omega
  obtain ⟨hwf, hnum, hlf⟩ := hsame.wellFormed.write_block hat one_pos
    (by rw [hsame.numLevels]; exact hvt.canonical) hnone
    (nextTable_leaf (pmentryLeaf_setup phys vprot isLevel_one)) rfl
  rw [hsame.numLevels] at hnum hlf
  refine ⟨.ok (), p1.write ⟨t, pteIndex virt 1⟩ (pmentrySetup phys vprot 1),
    by rw [pmapPatchNoflush, hwk]; simp only [entry, hphys'], hwf, hnum, ?_,
    fun v hv => ?_⟩
  · change p.translate virt ≠ none
    rw [hmap]
    exact Option.some_ne_none _
  rw [Pmap.translate, hlf v hv.canonical]
  split
  case isTrue hblk =>
    obtain rfl := (page_block_iff hv hvt).mp hblk
    rw [entryValue_setup isLevel_one hph vprot hv.aligned rfl hv.aligned,
      if_pos (show (PmapOp.patch v vprot).Covers v from rfl)]
    simp [PmapOp.effect, hmap, hmk]
  case isFalse hblk =>
    exact (hsame.translate v).trans
      (if_neg fun hcov => hblk ((page_block_iff hv hvt).mpr hcov)).symm

/-! ## Unmapping at the top -/

/-- Memory is short for the splits of a leaf of a level until one starts at the address. -/
def Short (virt : BitVec 64) :
    (level : Nat) → (frames : List (BitVec 64)) → (used : BitVec 64 → Bool) → Prop
  | 0, _, _ => False
  | level + 1, frames, used => virt.toNat % 2 ^ pmentryLevelShift (level + 1) ≠ 0 ∧
    match frames with
    | [] => True
    | phys :: frames => ¬(IsFrame phys ∧ used phys = false) ∨
        Short virt level frames (Function.update used phys true)

/-- What unmapping a range takes: if the range ends at the top of the address space, nothing is
mapped in it; otherwise its last page is not in a hole that reaches the top, unless memory is
short for the splits at its start. -/
def Pmap.Fits (p : Pmap) : PmapOp → Prop
  | .unmapRange virt size => size = 0 ∨
      if virt.toNat + size.toNat = 2 ^ 64 then
        ∀ v, IsPage p.numLevels v → virt.toNat ≤ v.toNat → p.translate v = none
      else ¬p.HoleToTop (virt + size - 1) ∨ pmentryValid (p.leafOf virt).2 = true ∧
        Short virt (p.leafOf virt).1 p.frames p.used
  | _ => True

theorem splitLargeNolock_memory (p : Pmap) (ref : EntryRef) (level : Nat) :
    (splitLargeNolock p ref level).2.frames = (pslabAllocPhys p).2.frames ∧
      (splitLargeNolock p ref level).2.used = (pslabAllocPhys p).2.used ∧
      ((pslabAllocPhys p).1 = 0 → (splitLargeNolock p ref level).1 = .error .ENOMEM) := by
  unfold splitLargeNolock
  split
  case h_1 phys p' hal =>
    rw [hal]
    split
    case isTrue => exact ⟨rfl, rfl, fun _ => rfl⟩
    case isFalse hne => exact ⟨rfl, rfl, fun h0 => absurd h0 hne⟩

/-- Short of memory, the loop ends before it has unmapped anything. -/
theorem unmapLoop_short (hmr : virt.toNat < last.toNat) (hald : virt.toNat % PAGE_SIZE = 0)
    (h : p.WellFormed) (hlvl : (p.leafOf virt).1 = level)
    (hval : pmentryValid (p.leafOf virt).2 = true) (hsh : Short virt level p.frames p.used)
    (htrn : level ≤ turns) :
    ∃ p', unmapLoop last turns virt p = some (.error .ENOMEM, p') ∧ Pmap.SameMap p p' := by
  induction level generalizing p turns with
  | zero => exact hsh.elim
  | succ level ih =>
    obtain ⟨turns, rfl⟩ := Nat.exists_eq_succ_of_ne_zero (Nat.ne_zero_of_lt htrn)
    obtain ⟨ref, l, t, hwk, hat, hisLevel, hnone, hle', href⟩ := pmentryWalk_page h virt
    rw [hle'] at hlvl hval
    obtain rfl : l = level + 1 := hlvl
    obtain rfl : ref = some ⟨t, pteIndex virt (level + 1)⟩ := by
      rcases href with rfl | ⟨-, hinv⟩
      · rfl
      · rw [hval] at hinv
        cases hinv
    obtain ⟨hali, hmy⟩ := hsh
    have hpart : ¬(virt &&& (pmentryLevelSize (level + 1) - 1) = 0 ∧
        last - virt > pmentryLevelSize (level + 1) - 1) :=
      fun hwho => hali ((and_levelMask_eq_zero_iff hisLevel virt).mp hwho.1)
    have hlar : 0 < level := by
      refine Nat.pos_of_ne_zero fun h0 => ?_
      subst h0
      exact hali hald
    obtain ⟨r1, p1, hspl, hsame, hr1, hleaf1⟩ := splitLargeNolock_spec h hat hlar hnone hval
    have hmem := splitLargeNolock_memory p ⟨t, pteIndex virt (level + 1)⟩ (level + 1)
    rw [hspl] at hmem
    rw [unmapLoop, if_pos (by rwa [lt_def]), hwk]
    simp only
    rw [if_neg (by simp [entry, hval]), if_neg hpart, hspl]
    rcases hr1 with ⟨rfl, -, -⟩ | ⟨rfl, t1, hat1, hnone1⟩
    · exact ⟨p1, rfl, hsame⟩
    have hlf : p1.leafOf virt = (level, p1.tables t1 (pteIndex virt level)) :=
      hat1.found_eq hlar hnone1
    have hvalid1 : pmentryValid (p1.leafOf virt).2 = true := by
      rcases hleaf1 virt with heq | hvalid1
      · rw [hlf, hle'] at heq
        exact absurd (congrArg Prod.fst heq) (Nat.succ_ne_self level).symm
      · exact hvalid1
    obtain ⟨hfrs, hus, hfa⟩ := hmem
    have hsh : Short virt level p1.frames p1.used := by
      rw [show p1.frames = _ from hfrs, show p1.used = _ from hus]
      unfold pslabAllocPhys at hfa ⊢
      cases hp : p.frames with
      | nil =>
        rw [hp] at hfa
        cases hfa rfl
      | cons phys frames =>
        rw [hp] at hfa hmy
        simp only at hfa hmy ⊢
        split at hfa
        case isTrue hfree =>
          rw [if_pos hfree]
          exact hmy.resolve_left (not_not_intro hfree)
        case isFalse => cases hfa rfl
    obtain ⟨p', hlp, hsm'⟩ := ih hsame.wellFormed (by rw [hlf]) hvalid1 hsh
      (Nat.le_of_succ_le_succ htrn)
    exact ⟨p', hlp, hsame.trans hsm'⟩

theorem pmapUnmapRangeNoflush_refines (h : p.WellFormed)
    (hin : (PmapOp.unmapRange virt size).Within p.numLevels)
    (hfits : p.Fits (.unmapRange virt size)) :
    ∃ r p', pmapUnmapRangeNoflush p virt size = some (r, p') ∧
      Refines p (.unmapRange virt size) r p' := by
  obtain ⟨hvt, hsz, hhalf⟩ := hin
  have hali : PageAligned (virt ||| size) := by
    rw [pageAligned_or, pageAligned_iff, pageAligned_iff]
    exact ⟨hvt, hsz⟩
  have htrn : (p.numLevels + 1) * (size.toNat / PAGE_SIZE) + p.numLevels <
      (p.numLevels + 1) * (size.toNat / PAGE_SIZE + 1) := by
    rw [Nat.mul_succ]
    omega
  have hle := h.leafOf_le virt
  rw [pmapUnmapRangeNoflush, if_pos hali]
  obtain ⟨turns, hsucc⟩ := Nat.exists_eq_succ_of_ne_zero (Nat.ne_zero_of_lt htrn)
  -- where the loop does not start, nothing may be mapped
  have hid : ¬virt < virt + size →
      (∀ v, IsPage p.numLevels v → Covers virt size v → p.translate v = none) →
      ∃ r p', unmapLoop (virt + size) ((p.numLevels + 1) * (size.toNat / PAGE_SIZE + 1)) virt p =
        some (r, p') ∧ Refines p (.unmapRange virt size) r p' := by
    intro hnot hnone
    refine ⟨.ok (), p, by rw [hsucc, unmapLoop, if_neg hnot], h, rfl, trivial, fun v hv => ?_⟩
    split
    case isTrue hcov => exact hnone v hv hcov
    case isFalse => rfl
  have hpow := hhalf.le_pow h.levels
  rcases hfits with h0 | hfits
  · subst h0
    exact hid (by simp) fun v hv hcov => absurd hcov (by simp [Covers])
  split at hfits
  case isTrue htop =>
    refine hid ?_ fun v hv hcov => hfits v hv hcov.1
    rw [lt_def, toNat_add, htop]
    exact Nat.not_lt_zero _
  rename_i hne
  have hlast : (virt + size).toNat = virt.toNat + size.toNat := by
    exact Nat.mod_eq_of_lt (by omega)
  rcases hfits with hhole | ⟨hval, hsh⟩
  · have hrdy : Ready (virt + size) virt p := {
      wellFormed := h
      aligned := hvt
      lastAligned := aligned_add hvt hsz
      half := fun _ => by rw [hlast, Nat.add_sub_cancel_left]; exact hhalf
      top := hhole }
    have hbnd : (p.numLevels + 1) * (((virt + size).toNat - virt.toNat) / PAGE_SIZE) +
        (p.leafOf virt).1 < (p.numLevels + 1) * (size.toNat / PAGE_SIZE + 1) := by
      rw [hlast, Nat.add_sub_cancel_left]
      omega
    obtain ⟨r, p', hlp, humap⟩ := unmapLoop_spec hrdy hbnd
    refine ⟨r, p', hlp, humap.wellFormed, humap.numLevels, ?_⟩
    rw [hlast] at humap
    cases r with
    | error e => exact fun v hv hcov => humap.outside v hv (hcov rfl)
    | ok =>
      refine ⟨trivial, fun v hv => ?_⟩
      split
      case isTrue hcov => exact humap.inside rfl v hv hcov.1 hcov.2
      case isFalse hcov => exact humap.outside v hv hcov
  · rcases Nat.eq_zero_or_pos size.toNat with h0 | hpos
    · have h0 : size = 0 := eq_of_toNat_eq h0
      subst h0
      exact hid (by simp) fun v hv hcov => absurd hcov (by simp [Covers])
    · have hmr : virt.toNat < (virt + size).toNat := by omega
      have hbnd : (p.leafOf virt).1 ≤ (p.numLevels + 1) * (size.toNat / PAGE_SIZE + 1) := by
        omega
      obtain ⟨p', hlp, hsame⟩ := unmapLoop_short hmr hvt h rfl hval hsh hbnd
      exact ⟨_, p', hlp, hsame.refines_error _ _⟩

/-! ## The refinement -/

/-- Every operation that fits returns, and does on the tables what it means on the map. -/
theorem pmapStep_refines (hmax : maxLevel ≤ 3) (h : p.WellFormed) (hin : op.Within p.numLevels)
    (hfits : p.Fits op) : ∃ r p', pmapStep maxLevel p op = some (r, p') ∧ Refines p op r p' := by
  cases op with
  | map virt phys vprot =>
    obtain ⟨r, p', hmap, href⟩ := pmapMap_refines h hin
    exact ⟨r, p', by rw [pmapStep, hmap], href⟩
  | mapRange virt phys size vprot => exact pmapMapRange_refines (hmax.trans (by decide)) h hin
  | unmap virt => exact pmapUnmapNoflush_refines h hin
  | unmapRange virt size => exact pmapUnmapRangeNoflush_refines h hin hfits
  | patch virt vprot => exact pmapPatchNoflush_refines h hin

theorem Pmap.WellFormed.leafOf_pageStart (h : p.WellFormed) (virt : BitVec 64) :
    p.leafOf (pageStart virt) = p.leafOf virt := by
  obtain ⟨l, t, hat, hl, hnone⟩ := h.tree.exists_at (pteIndex virt)
  have hdig : ∀ {j}, IsLevel j → pteIndex (pageStart virt) j = pteIndex virt j := by
    intro j hj
    rw [Fin.ext_iff, val_pteIndex hj, val_pteIndex hj, pageStart, ofNat_PAGE_SIZE,
      toNat_and_not_levelMask isLevel_one]
    obtain ⟨j, rfl⟩ := Nat.exists_eq_succ_of_ne_zero hj.1.ne'
    rw [show pmentryLevelShift 1 = 12 from rfl, pmentryLevelShift_succ, pow_add _ 12,
      ← Nat.div_div_eq_div_mul, ← Nat.div_div_eq_div_mul, Nat.mul_div_cancel _ (Nat.two_pow_pos 12)]
  have hn := h.levels
  have hagr : Lib.Trie.Agree p.numLevels l (pteIndex virt) (pteIndex (pageStart virt)) :=
    fun j hj hjn => (hdig ⟨by omega, by omega⟩).symm
  have hhere : p.WalkAt (pageStart virt) l t := hat.congr (hagr.mono (Nat.le_succ _))
  have hd := hagr l le_rfl hat.le
  rw [leafOf, leafOf, hat.found_eq hl hnone, hhere.found_eq hl (by rw [← hd, hnone]), hd]

theorem pmapResolve_eq (h : p.WellFormed) (virt : BitVec 64) :
    pmapResolveAddress p virt = (p.translate (pageStart virt)).elim 0
        (fun found => found.1 + (virt &&& (BitVec.ofNat 64 PAGE_SIZE - 1))) ∧
      pmapResolveVprot p virt = (p.translate (pageStart virt)).elim 0 (·.2) := by
  obtain ⟨ref, l, t, hwk, hat, hlvl, hnone, hlf, href⟩ := pmentryWalk_page h virt
  have hoff := entryValue_offset hlvl virt (p.tables t (pteIndex virt l))
  rw [pmapResolveAddress, pmapResolveVprot, hwk, Pmap.translate, h.leafOf_pageStart, hlf]
  rcases href with rfl | ⟨rfl, hinv⟩
  · cases hval : pmentryValid (p.tables t (pteIndex virt l)) with
    | true =>
      rw [entryValue_valid hval, entryValue_valid hval, Option.map_some,
        Option.some.injEq, Prod.mk.injEq] at hoff
      rw [entryValue_valid hval]
      simp only [entry, hval, if_true, Option.elim_some]
      exact ⟨hoff.1, trivial⟩
    | false =>
      rw [entryValue_invalid hval]
      simp [entry, hval]
  · rw [entryValue_invalid hinv]
    exact ⟨rfl, rfl⟩

/-- **The page map refines a partial function** from pages to physical pages and protections: in
every run of the operations on pages of one half, in which every unmapped range fits, each
operation returns and means on the map what it should, and looking up an address finds the value
of the map. -/
theorem pmap_refines_page_map {maxLevel : Nat} (hmax : maxLevel ≤ 3) {p p' : Pmap}
    (h : p.WellFormed) {ops : List (PmapOp × Except Errno Unit)}
    (hrun : Run (Under (fun p a => a.1.Within p.numLevels ∧ p.Fits a.1)
      (Fires (pmapStep maxLevel))) p ops p') :
    Run (MapStep p.numLevels) p.translate ops p'.translate ∧
      (∀ virt, pmapResolveAddress p' virt = (p'.translate (pageStart virt)).elim 0
          (fun found => found.1 + (virt &&& (BitVec.ofNat 64 PAGE_SIZE - 1))) ∧
        pmapResolveVprot p' virt = (p'.translate (pageStart virt)).elim 0 (·.2)) ∧
      ∀ op : PmapOp, op.Within p'.numLevels → p'.Fits op →
        (pmapStep maxLevel p' op).isSome := by
  obtain ⟨m, hsim, hwf, hnum, rfl⟩ : ∃ m, Run (MapStep p.numLevels) p.translate ops m ∧
      p'.WellFormed ∧ p'.numLevels = p.numLevels ∧ m = p'.translate := by
    refine hrun.simulates (R := fun q m => q.WellFormed ∧ q.numLevels = p.numLevels ∧
      m = q.translate) ⟨h, rfl, rfl⟩ ?_
    rintro q ⟨op, r⟩ q' m ⟨hq, hnum, rfl⟩ ⟨⟨hin, hfits⟩, hstep⟩
    obtain ⟨r', q'', hstep', hrefines⟩ := pmapStep_refines hmax hq hin hfits
    cases hstep'.symm.trans hstep
    exact ⟨_, hnum ▸ hrefines.mapStep, hrefines.wellFormed, hrefines.numLevels.trans hnum, rfl⟩
  refine ⟨hsim, pmapResolve_eq hwf, fun op hin hfits => ?_⟩
  obtain ⟨r, q, hstep, -⟩ := pmapStep_refines hmax hwf hin hfits
  rw [hstep]
  rfl

/-- A page map with an empty table of four levels, and memory for three more. -/
def emptyPmap : Pmap where
  numLevels := 4
  root := 0x1000
  tables := fun _ _ => 0
  used := fun t => t == 0x1000
  frames := [0x2000, 0x3000, 0x4000]

theorem emptyPmap_wellFormed : emptyPmap.WellFormed := by
  have hrt : ∀ {d l t}, Lib.Trie.At nextTable emptyPmap.tables 4 0x1000 d l t →
      l = 4 ∧ t = 0x1000 := by
    intro d l t hat
    induction hat with
    | root => exact ⟨rfl, rfl⟩
    | down _ hnx => exact nomatch (nextTable_invalid pmentryValid_zero _).symm.trans hnx
  refine ⟨.inl rfl, ⟨fun h1 h2 => ?_, fun h1 => ?_, nextTable_one, by decide⟩⟩
  · obtain ⟨rfl, -⟩ := hrt h1
    obtain ⟨rfl, -⟩ := hrt h2
    exact ⟨rfl, fun j hj hn => absurd hj (by have : j ≤ 4 := hn; omega)⟩
  · rw [(hrt h1).2]
    rfl

/-- The last page of the address space. -/
def lastPage : BitVec 64 := 0xFFFFFFFFFFFFF000

/-- A large leaf is mapped, and split by changing a page and unmapping another. -/
theorem pmap_refines_page_map_split :
    ∃ p' : Pmap, Run (MapStep 4) emptyPmap.translate
        [(.mapRange 0x200000 0x400000 0x200000 VPROT_WRITE, .ok ()),
          (.patch 0x201000 VPROT_READ, .ok ()), (.unmapRange 0x202000 0x1000, .ok ())]
        p'.translate ∧ p'.translate 0x203000 = some (0x403000, VPROT_READ ||| VPROT_WRITE) := by
  refine ⟨_, And.left <| pmap_refines_page_map (Nat.le_refl 3) emptyPmap_wellFormed <|
    .cons ⟨⟨?_, trivial⟩, rfl⟩ <| .cons ⟨⟨?_, trivial⟩, rfl⟩ <| .cons ⟨⟨?_, ?_⟩, rfl⟩ .nil, ?_⟩
  · exact ⟨by decide, by decide, by decide, .inl (by decide)⟩
  · exact ⟨.inl (by decide), by decide⟩
  · exact ⟨by decide, by decide, .inl (by decide)⟩
  · exact .inr (.inl (by decide +kernel))
  · decide +kernel

/-- The page stays mapped, though unmapping it has succeeded. -/
theorem unmap_range_leaves_last_page :
    ∃ p', trace (pmapStep 3) emptyPmap
        [.map lastPage 0x5000 VPROT_WRITE, .unmapRange lastPage 0x1000] =
      some ([(.map lastPage 0x5000 VPROT_WRITE, .ok ()),
        (.unmapRange lastPage 0x1000, .ok ())], p') ∧
      (PmapOp.unmapRange lastPage 0x1000).Within 4 ∧
      p'.translate lastPage = some (0x5000, VPROT_READ ||| VPROT_WRITE) := by
  refine ⟨_, rfl, ⟨by decide, by decide, .inr ⟨by decide, by decide⟩⟩, by decide +kernel⟩

end Vex.Mm.PageTables
