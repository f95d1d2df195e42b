import Vex.Fs.Ext2Bitmap
import Mathlib.Algebra.BigOperators.Group.Finset.Basic
import Mathlib.Data.Nat.Bitwise

/-! What `setup_geometry` and `load_groups` establish about a volume they accept, and what a
well-formed volume adds: its bitmaps share no block with each other or with what the allocator
writes elsewhere. -/

namespace Vex.Fs.Ext2

open Lib Finset

/-- What stays the same from the mount on: the geometry, and where the groups have their bitmaps
and inode tables. -/
structure Layout where
  size : Nat
  blocksCount : Nat
  inodesCount : Nat
  blockSize : Nat
  inodeSize : Nat
  groupsOffset : Nat
  groupsCount : Nat
  blocksPerGroup : Nat
  inodesPerGroup : Nat
  firstDataBlock : Nat
  firstIno : Nat
  blockBitmap : Nat → Nat
  inodeBitmap : Nat → Nat
  inodeTable : Nat → Nat

def Context.layout (c : Context) : Layout where
  size := c.volume.size
  blocksCount := c.blocksCount
  inodesCount := c.inodesCount
  blockSize := c.blockSize
  inodeSize := c.inodeSize
  groupsOffset := c.groupsOffset
  groupsCount := c.groupsCount
  blocksPerGroup := c.blocksPerGroup
  inodesPerGroup := c.inodesPerGroup
  firstDataBlock := c.firstDataBlock
  firstIno := c.firstIno
  blockBitmap := fun g => Desc.blockBitmap.get (c.groups g)
  inodeBitmap := fun g => Desc.inodeBitmap.get (c.groups g)
  inodeTable := fun g => Desc.inodeTable.get (c.groups g)

namespace Layout

variable (l : Layout)

/-- What `setup_geometry` has checked. -/
structure Geometry : Prop where
  blocksCount_lt : l.blocksCount < 2 ^ 32
  inodesCount_lt : l.inodesCount < 2 ^ 32
  blockSize_ge : 1024 ≤ l.blockSize
  blockSize_le : l.blockSize ≤ 65536
  blocksPerGroup_pos : 0 < l.blocksPerGroup
  blocksPerGroup_le : l.blocksPerGroup ≤ l.blockSize * 8
  inodesPerGroup_pos : 0 < l.inodesPerGroup
  inodesPerGroup_le : l.inodesPerGroup ≤ l.blockSize * 8
  firstDataBlock_lt : l.firstDataBlock < l.blocksCount
  size_ge : l.blockSize * l.blocksCount ≤ l.size
  groupsCount_eq : l.groupsCount =
    u32 (l.blocksCount - l.firstDataBlock + l.blocksPerGroup - 1) / l.blocksPerGroup
  inodesCount_eq : l.groupsCount * l.inodesPerGroup = l.inodesCount
  inodeSize_le : l.inodeSize ≤ l.blockSize
  inodeSize_dvd : GOOD_OLD_INODE_SIZE ∣ l.inodeSize
  firstIno_pos : 0 < l.firstIno
  groupsOffset_ge : SUPER_OFFSET + SUPER_SIZE ≤ l.groupsOffset

/-- What `load_groups` has checked on top of it. -/
structure Laid : Prop extends l.Geometry where
  groups_le : l.groupsOffset + l.groupsCount * DESC_SIZE ≤ l.size
  blockBitmap_lt : ∀ g < l.groupsCount, l.blockBitmap g < l.blocksCount
  inodeBitmap_lt : ∀ g < l.groupsCount, l.inodeBitmap g < l.blocksCount
  inodeTable_le : ∀ g < l.groupsCount,
    l.blockSize * l.inodeTable g + l.inodesPerGroup * l.inodeSize ≤ l.size

end Layout

/-- The memory copies of the superblock and the descriptors are what the device has. -/
structure Context.Stored (c : Context) : Prop where
  super : ∀ i < SUPER_SIZE, c.volume.bytes (SUPER_OFFSET + i) = c.super i
  groups : ∀ g < c.groupsCount, ∀ i < DESC_SIZE,
    c.volume.bytes (c.groupsOffset + g * DESC_SIZE + i) = c.groups g i

/-! ## Acceptance -/

theorem readSuper_ok (h : readSuper c = .ok c') : c' = { c with
    super := window c.volume.bytes SUPER_OFFSET SUPER_SIZE } := by
  rw [readSuper, Context.devRead] at h
  split at h
  · exact (Except.ok.inj h).symm
  · cases h

/-- A power of two from 128 on, in the form `setup_geometry` tests for one. -/
theorem dvd_of_and_sub_one (h : n &&& (n - 1) = 0) (hn : 128 ≤ n) : 128 ∣ n := by
  by_contra hdvd
  -- If the low seven bits are not all zero, `n - 1` has the same high bits as `n`.
  have hhi : (n - 1) / 2 ^ 7 = n / 2 ^ 7 := by omega
  have hand : (n &&& (n - 1)) / 2 ^ 7 = n / 2 ^ 7 &&& (n - 1) / 2 ^ 7 := Nat.and_div_two_pow
  rw [hhi, Nat.and_self] at hand
  omega

theorem superblock_before : SUPER_OFFSET + SUPER_SIZE ≤
    2 ^ (10 + l) * (SUPER_OFFSET / 2 ^ (10 + l) + 1) := by
  cases l with
  | zero => decide
  | succ l =>
    have hpow : 2 ^ 11 ≤ 2 ^ (10 + (l + 1)) := Nat.pow_le_pow_right (by decide) (by omega)
    calc SUPER_OFFSET + SUPER_SIZE ≤ 2 ^ (10 + (l + 1)) * 1 := by rwa [Nat.mul_one]
      _ ≤ _ := Nat.mul_le_mul_left _ (Nat.le_add_left _ _)

/-- The blocks of a file system that is not larger than its device lie on the device. -/
theorem blocks_on_device (hsec : blockSize % sectorSize = 0)
    (h : blocks ≤ sectorCount / (blockSize / sectorSize)) :
    blockSize * blocks ≤ sectorCount * sectorSize := by
  have hspl : blockSize = blockSize / sectorSize * sectorSize :=
    (Nat.div_mul_cancel (Nat.dvd_of_mod_eq_zero hsec)).symm
  calc blockSize * blocks = blocks * (blockSize / sectorSize) * sectorSize := by
        rw [Nat.mul_assoc, ← hspl, Nat.mul_comm]
    _ ≤ sectorCount * sectorSize :=
        Nat.mul_le_mul_right _ ((Nat.mul_le_mul_right _ h).trans (Nat.div_mul_le_self _ _))

theorem setupGeometry_ok (h : setupGeometry c = .ok c') :
    c'.layout.Geometry ∧ c'.volume = c.volume ∧ c'.super = c.super := by
  simp only [setupGeometry, guard_eq_ok] at h
  obtain ⟨-, -, hlog, hsec, hper, hfst, hsz, hins, hisize, hino, -, ⟨⟩⟩ := h
  simp only [Nat.one_shiftLeft, not_or, not_and, not_lt, Decidable.not_not, not_le,
    gt_iff_lt] at hlog hsec hper hfst hsz hins hisize hino ⊢
  have hpow : 2 ^ 10 ≤ 2 ^ (10 + Super.logBlockSize.get c.super) :=
    Nat.pow_le_pow_right (by decide) (Nat.le_add_right _ _)
  have hpow' : 2 ^ (10 + Super.logBlockSize.get c.super) ≤ 2 ^ 16 :=
    Nat.pow_le_pow_right (by decide) (Nat.add_le_add_left hlog 10)
  refine ⟨?_, trivial, trivial⟩
  constructor
  case blocksCount_lt => exact le_lt
  case inodesCount_lt => exact le_lt
  case blockSize_ge => exact hpow
  case blockSize_le => exact hpow'
  case blocksPerGroup_pos => exact Nat.pos_of_ne_zero hper.1
  case blocksPerGroup_le => exact hper.2.1
  case inodesPerGroup_pos => exact Nat.pos_of_ne_zero hper.2.2.1
  case inodesPerGroup_le => exact hper.2.2.2
  case firstDataBlock_lt => exact hfst.2
  case size_ge => exact blocks_on_device hsec hsz
  case groupsCount_eq => rfl
  case inodesCount_eq => exact hins
  case inodeSize_le =>
    dsimp only [Context.layout]
    split
    case isTrue hdyn =>
      have hs := hisize hdyn
      rw [if_pos hdyn] at hs
      exact hs.2.1
    case isFalse => exact Nat.le_trans (by decide) hpow
  case inodeSize_dvd =>
    split
    case isTrue hdyn =>
      have hs := hisize hdyn
      rw [if_pos hdyn] at hs
      exact dvd_of_and_sub_one hs.2.2 hs.1
    case isFalse => exact Nat.dvd_refl _
  case firstIno_pos =>
    dsimp only [Context.layout]
    split
    case isTrue hdyn =>
      have hs := hino hdyn
      rw [if_pos hdyn] at hs
      omega
    case isFalse => decide
  case groupsOffset_ge =>
    rw [hfst.1]
    exact superblock_before

theorem groupBlockValid_eq (h : groupBlockValid c block count = true) :
    c.firstDataBlock ≤ block ∧ block < c.blocksCount ∧ block + count ≤ c.blocksCount := by
  simp only [groupBlockValid, Bool.and_eq_true, decide_eq_true_eq] at h
  omega

theorem inodeTable_fits (h : c.layout.Geometry) (hval : groupBlockValid c block
      (u32 ((c.inodesPerGroup * c.inodeSize + c.blockSize - 1) / c.blockSize)) = true) :
    c.blockOffset block + c.inodesPerGroup * c.inodeSize ≤ c.volume.size := by
  have hpos : 0 < c.blockSize := Nat.lt_of_lt_of_le (by decide) h.blockSize_ge
  have hper : c.inodesPerGroup ≤ c.blockSize * 8 := h.inodesPerGroup_le
  have hbs : c.blockSize ≤ 65536 := h.blockSize_le
  generalize hq : (c.inodesPerGroup * c.inodeSize + c.blockSize - 1) / c.blockSize = q at hval
  have htab : c.inodesPerGroup * c.inodeSize ≤ c.blockSize * q := by
    have hmod := Nat.div_add_mod (c.inodesPerGroup * c.inodeSize + c.blockSize - 1) c.blockSize
    have hlt := Nat.mod_lt (c.inodesPerGroup * c.inodeSize + c.blockSize - 1) hpos
    rw [hq] at hmod
    omega
  have hq32 : u32 q = q := by
    have hle : q ≤ c.inodesPerGroup := by
      rw [← hq]
      refine Nat.le_of_lt_succ ((Nat.div_lt_iff_lt_mul hpos).mpr ?_)
      have hmul : c.inodesPerGroup * c.inodeSize ≤ c.inodesPerGroup * c.blockSize :=
        Nat.mul_le_mul_left _ h.inodeSize_le
      rw [Nat.succ_mul]
      omega
    exact Nat.mod_eq_of_lt (by omega)
  obtain ⟨-, -, hend⟩ := groupBlockValid_eq hval
  rw [hq32] at hend
  calc c.blockOffset block + c.inodesPerGroup * c.inodeSize
      ≤ c.blockSize * block + c.blockSize * q := Nat.add_le_add_left htab _
    _ = c.blockSize * (block + q) := (Nat.mul_add _ _ _).symm
    _ ≤ c.blockSize * c.blocksCount := Nat.mul_le_mul_left _ hend
    _ ≤ c.volume.size := h.size_ge

theorem desc_eq (hg : g < n) (hi : i < DESC_SIZE) :
    window (window b off (n * DESC_SIZE)) (g * DESC_SIZE) DESC_SIZE i =
      b (off + g * DESC_SIZE + i) := by
  have hin : g * DESC_SIZE + i < n * DESC_SIZE :=
    calc g * DESC_SIZE + i < g * DESC_SIZE + DESC_SIZE := Nat.add_lt_add_left hi _
      _ = (g + 1) * DESC_SIZE := (Nat.succ_mul _ _).symm
      _ ≤ n * DESC_SIZE := Nat.mul_le_mul_right _ hg
  rw [window_of_lt hi, window_of_lt hin, Nat.add_assoc]

theorem loadGroups_ok (h : loadGroups c = .ok c') (hgeo : c.layout.Geometry)
    (hsup : ∀ i < SUPER_SIZE, c.volume.bytes (SUPER_OFFSET + i) = c.super i) :
    c'.layout.Laid ∧ c'.Stored := by
  obtain ⟨table, hrd, h⟩ := bind_eq_ok.mp h
  have htab := Context.devRead_ok hrd
  have hdev : c.groupsOffset + c.groupsCount * DESC_SIZE ≤ c.volume.size := by
    by_contra hout
    rw [Context.devRead, if_neg hout] at hrd
    cases hrd
  dsimp only at h
  split at h
  case isFalse => cases h
  rename_i hval
  cases h
  simp only [List.all_eq_true, List.mem_range, Bool.and_eq_true] at hval
  refine ⟨?_, hsup, fun g hg i hi => ?_⟩
  · exact { hgeo with
      groups_le := hdev
      blockBitmap_lt := fun g hg => (groupBlockValid_eq (hval g hg).1.1).2.1
      inodeBitmap_lt := fun g hg => (groupBlockValid_eq (hval g hg).1.2).2.1
      inodeTable_le := fun g hg => inodeTable_fits hgeo (hval g hg).2 }
  · subst htab
    exact (desc_eq hg hi).symm

theorem mount_volume (h : mount volume = .ok c) : c.volume = volume := by
  obtain ⟨c1, hsup, h⟩ := bind_eq_ok.mp h
  obtain ⟨c2, hsetup, h⟩ := bind_eq_ok.mp h
  obtain ⟨-, hvol, -⟩ := setupGeometry_ok hsetup
  obtain ⟨table, -, h⟩ := bind_eq_ok.mp h
  dsimp only at h
  split at h
  case isFalse => cases h
  case isTrue =>
    cases h
    rw [hvol, readSuper_ok hsup]
    rfl

theorem mount_ok (h : mount volume = .ok c) : c.layout.Laid ∧ c.Stored := by
  obtain ⟨c1, hsup, h⟩ := bind_eq_ok.mp h
  obtain ⟨c2, hsetup, h⟩ := bind_eq_ok.mp h
  obtain ⟨hgeo, hvol, hsame⟩ := setupGeometry_ok hsetup
  have hrd := readSuper_ok hsup
  refine loadGroups_ok h hgeo fun i hi => ?_
  rw [hvol, hsame, hrd]
  exact (window_of_lt hi).symm

/-! ## The groups -/

namespace Layout

variable {l : Layout} {g k b : Nat}

/-- The blocks of a group: `blocks_per_group`, and what is left for the last group. -/
def limit (l : Layout) (g : Nat) : Nat :=
  min l.blocksPerGroup (l.blocksCount - l.firstDataBlock - g * l.blocksPerGroup)

section
variable (h : l.Geometry) (hrt : 0 < l.inodesCount)
include h hrt

theorem Geometry.groupsCount_pos :
    0 < l.groupsCount := by
  rw [← h.inodesCount_eq] at hrt
  exact Nat.pos_of_mul_pos_right hrt

/-- The 32-bit sum of `setup_geometry` wraps only where it leaves no group at all. -/
theorem Geometry.groupsCount_exact :
    l.groupsCount =
      (l.blocksCount - l.firstDataBlock + l.blocksPerGroup - 1) / l.blocksPerGroup := by
  have hpos := h.groupsCount_pos hrt
  have heq := h.groupsCount_eq
  have hlt := h.blocksCount_lt
  rw [u32] at heq
  by_cases hwp : l.blocksCount - l.firstDataBlock + l.blocksPerGroup - 1 < 2 ^ 32
  · rwa [Nat.mod_eq_of_lt hwp] at heq
  · rw [Nat.div_eq_of_lt (by omega)] at heq
    omega

theorem Geometry.group_lt_iff :
    g < l.groupsCount ↔ g * l.blocksPerGroup < l.blocksCount - l.firstDataBlock := by
  have hper := h.blocksPerGroup_pos
  rw [h.groupsCount_exact hrt, Nat.lt_iff_add_one_le, Nat.le_div_iff_mul_le hper, Nat.succ_mul]
  omega

end

theorem Geometry.block_lt (h : l.Geometry) (hk : k < l.limit g) :
    l.firstDataBlock + g * l.blocksPerGroup + k < l.blocksCount := by
  have hfst := h.firstDataBlock_lt
  rw [limit] at hk
  omega

theorem limit_le : l.limit g ≤ l.blocksPerGroup := Nat.min_le_left _ _

theorem Geometry.group_of_block (h : l.Geometry) (hrt : 0 < l.inodesCount)
    (hb : b < l.blocksCount - l.firstDataBlock) :
    b / l.blocksPerGroup < l.groupsCount ∧
      b % l.blocksPerGroup < l.limit (b / l.blocksPerGroup) := by
  have hmod := Nat.mod_lt b h.blocksPerGroup_pos
  have hdiv := Nat.div_add_mod' b l.blocksPerGroup
  refine ⟨(h.group_lt_iff hrt).mpr (by omega), ?_⟩
  rw [limit]
  omega

theorem Geometry.group_of_inode (h : l.Geometry) (hi : i < l.inodesCount) :
    i / l.inodesPerGroup < l.groupsCount ∧ i % l.inodesPerGroup < l.inodesPerGroup := by
  refine ⟨?_, Nat.mod_lt _ h.inodesPerGroup_pos⟩
  rw [Nat.div_lt_iff_lt_mul h.inodesPerGroup_pos, h.inodesCount_eq]
  exact hi

theorem sum_limit_le (l : Layout) (n : Nat) :
    ∑ g ∈ Finset.range n, l.limit g ≤ l.blocksCount - l.firstDataBlock := by
  have hmin : ∑ g ∈ range n, l.limit g =
      min (n * l.blocksPerGroup) (l.blocksCount - l.firstDataBlock) := by
    induction n with
    | zero => simp
    | succ n ih =>
      rw [sum_range_succ, limit, Nat.succ_mul]
      omega
  rw [hmin]
  exact Nat.min_le_right _ _

/-! ## Separation -/

/-- The byte ranges `[o, o + n)` and `[o', o' + n')` do not meet. -/
def Apart (o n o' n' : Nat) : Prop := o + n ≤ o' ∨ o' + n' ≤ o

instance {o n o' n' : Nat} : Decidable (Apart o n o' n') := inferInstanceAs (Decidable (_ ∨ _))

/-- The `n` bytes at `o` meet neither the superblock nor the group descriptors. -/
def ClearOfCounts (l : Layout) (o n : Nat) : Prop :=
  Apart o n SUPER_OFFSET SUPER_SIZE ∧ Apart o n l.groupsOffset (l.groupsCount * DESC_SIZE)

instance {o n : Nat} : Decidable (l.ClearOfCounts o n) := inferInstanceAs (Decidable (_ ∧ _))

/-- Nothing else is kept in the block of a bitmap, and the inode tables are not laid over the
superblock or the descriptors. -/
structure Separate (l : Layout) : Prop where
  blockBitmap_inj : ∀ g < l.groupsCount, ∀ h < l.groupsCount,
    l.blockBitmap g = l.blockBitmap h → g = h
  inodeBitmap_inj : ∀ g < l.groupsCount, ∀ h < l.groupsCount,
    l.inodeBitmap g = l.inodeBitmap h → g = h
  bitmaps_ne : ∀ g < l.groupsCount, ∀ h < l.groupsCount, l.blockBitmap g ≠ l.inodeBitmap h
  bitmaps_clear : ∀ g < l.groupsCount,
    l.ClearOfCounts (l.blockSize * l.blockBitmap g) l.blockSize ∧
    l.ClearOfCounts (l.blockSize * l.inodeBitmap g) l.blockSize
  tables_clear : ∀ g < l.groupsCount,
    l.ClearOfCounts (l.blockSize * l.inodeTable g) (l.inodesPerGroup * l.inodeSize)
  bitmaps_tables : ∀ g < l.groupsCount, ∀ h < l.groupsCount,
    Apart (l.blockSize * l.blockBitmap g) l.blockSize
      (l.blockSize * l.inodeTable h) (l.inodesPerGroup * l.inodeSize) ∧
    Apart (l.blockSize * l.inodeBitmap g) l.blockSize
      (l.blockSize * l.inodeTable h) (l.inodesPerGroup * l.inodeSize)

/-- Two bitmaps a group leave room for fewer than `2 ^ 31` groups. -/
theorem Separate.groupsCount_le (hs : l.Separate) (h : l.Laid) :
    2 * l.groupsCount ≤ l.blocksCount := by
  have hinj : ((range l.groupsCount).image l.blockBitmap).card = l.groupsCount := by
    rw [card_image_of_injOn, card_range]
    intro g hg k hk
    exact hs.blockBitmap_inj g (by simpa using hg) k (by simpa using hk)
  have hinj' : ((range l.groupsCount).image l.inodeBitmap).card = l.groupsCount := by
    rw [card_image_of_injOn, card_range]
    intro g hg k hk
    exact hs.inodeBitmap_inj g (by simpa using hg) k (by simpa using hk)
  have hdisj : Disjoint ((range l.groupsCount).image l.blockBitmap)
      ((range l.groupsCount).image l.inodeBitmap) := by
    rw [disjoint_left]
    intro x hx hx'
    obtain ⟨g, hg, rfl⟩ := mem_image.mp hx
    obtain ⟨k, hk, heq⟩ := mem_image.mp hx'
    exact hs.bitmaps_ne g (mem_range.mp hg) k (mem_range.mp hk) heq.symm
  have hsub : (range l.groupsCount).image l.blockBitmap ∪
      (range l.groupsCount).image l.inodeBitmap ⊆ range l.blocksCount := by
    intro x hx
    rw [mem_range]
    rcases mem_union.mp hx with hx | hx
    · obtain ⟨g, hg, rfl⟩ := mem_image.mp hx
      exact h.blockBitmap_lt g (mem_range.mp hg)
    · obtain ⟨g, hg, rfl⟩ := mem_image.mp hx
      exact h.inodeBitmap_lt g (mem_range.mp hg)
  have hcard := card_le_card hsub
  rw [card_union_of_disjoint hdisj, card_range] at hcard
  omega

end Layout

theorem groupBlocks_eq (h : c.layout.Geometry) (hrt : 0 < c.inodesCount) (hg : g < c.groupsCount)
    : groupBlocks c g = c.layout.limit g := by
  have hlt : g * c.blocksPerGroup < c.blocksCount - c.firstDataBlock := (h.group_lt_iff hrt).mp hg
  have hcnt : c.blocksCount < 2 ^ 32 := h.blocksCount_lt
  have hfst : u32 (c.firstDataBlock + g * c.blocksPerGroup) =
      c.firstDataBlock + g * c.blocksPerGroup := Nat.mod_eq_of_lt (by omega)
  have hleft : u32 (c.blocksCount + 2 ^ 32 - (c.firstDataBlock + g * c.blocksPerGroup)) =
      c.blocksCount - c.firstDataBlock - g * c.blocksPerGroup := by
    rw [u32]
    omega
  rw [groupBlocks, hfst]
  simp only [Layout.limit, Context.layout]
  split <;> omega

end Vex.Fs.Ext2
