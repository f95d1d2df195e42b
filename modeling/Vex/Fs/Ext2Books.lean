import Vex.Fs.Ext2Layout
import Vex.Lib.Pool

/-! The books of an ext2 volume: the blocks and the inodes as pools, and what one call of the
allocator does to them. Each device write is described by the range it stays in; a bitmap whose
block the range does not meet is the same after it. -/

namespace Vex.Fs.Ext2

open Lib

variable {c c' : Context} {g h k j b o n now ino : Nat} {desc sup buf : Bytes}

/-- What the allocator hands out. -/
inductive Kind
  | block | inode
  deriving DecidableEq

/-- The field of a descriptor that counts what is free of a kind. -/
def Kind.freeField : Kind → Field
  | .block => Desc.freeBlocksCount
  | .inode => Desc.freeInodesCount

def Kind.totalField : Kind → Field
  | .block => Super.freeBlocksCount
  | .inode => Super.freeInodesCount

namespace Layout

def bitmap (l : Layout) : Kind → Nat → Nat
  | .block => l.blockBitmap
  | .inode => l.inodeBitmap

/-- How many units of a kind a group has. -/
def units (l : Layout) : Kind → Nat → Nat
  | .block => l.limit
  | .inode => fun _ => l.inodesPerGroup

/-- A volume whose geometry was accepted, whose bitmaps are kept apart from everything else, and
which has inodes. -/
structure Sound (l : Layout) : Prop where
  laid : l.Laid
  separate : l.Separate
  root : 0 < l.inodesCount

variable {l : Layout} {κ κ' : Kind}

theorem Separate.bitmap_inj (hs : l.Separate) (hg : g < l.groupsCount) (hh : h < l.groupsCount)
    (heq : l.bitmap κ g = l.bitmap κ' h) : κ = κ' ∧ g = h := by
  cases κ <;> cases κ'
  · exact ⟨rfl, hs.blockBitmap_inj g hg h hh heq⟩
  · exact absurd heq (hs.bitmaps_ne g hg h hh)
  · exact absurd heq.symm (hs.bitmaps_ne h hh g hg)
  · exact ⟨rfl, hs.inodeBitmap_inj g hg h hh heq⟩

theorem Separate.bitmap_clear (hs : l.Separate) (hg : g < l.groupsCount) :
    l.ClearOfCounts (l.blockSize * l.bitmap κ g) l.blockSize := by
  cases κ
  · exact (hs.bitmaps_clear g hg).1
  · exact (hs.bitmaps_clear g hg).2

theorem Separate.bitmap_table (hs : l.Separate) (hg : g < l.groupsCount) (hh : h < l.groupsCount) :
    Apart (l.blockSize * l.bitmap κ g) l.blockSize (l.blockSize * l.inodeTable h)
      (l.inodesPerGroup * l.inodeSize) := by
  cases κ
  · exact (hs.bitmaps_tables g hg h hh).1
  · exact (hs.bitmaps_tables g hg h hh).2

theorem Geometry.units_le (hg : l.Geometry) : l.units κ h ≤ l.blockSize * 8 := by
  cases κ
  · exact Nat.le_trans limit_le hg.blocksPerGroup_le
  · exact hg.inodesPerGroup_le

theorem Laid.bitmap_le (hl : l.Laid) (hg : g < l.groupsCount) :
    l.blockSize * l.bitmap κ g + l.blockSize ≤ l.size := by
  have hlt : l.bitmap κ g < l.blocksCount := by
    cases κ
    · exact hl.blockBitmap_lt g hg
    · exact hl.inodeBitmap_lt g hg
  exact Nat.le_trans (Nat.mul_le_mul_left _ hlt) hl.size_ge

theorem Sound.sum_units_lt (hs : l.Sound) (κ : Kind) :
    ∑ g ∈ Finset.range l.groupsCount, l.units κ g < 2 ^ 32 := by
  cases κ
  · have hsum := sum_limit_le l l.groupsCount
    have hlt := hs.laid.blocksCount_lt
    show ∑ g ∈ Finset.range l.groupsCount, l.limit g < 2 ^ 32
    omega
  · have hsum : ∑ g ∈ Finset.range l.groupsCount, l.units .inode g = l.inodesCount := by
      simp [units, hs.laid.inodesCount_eq]
    rw [hsum]
    exact hs.laid.inodesCount_lt

end Layout

namespace Context

@[simp] theorem layout_groupsCount (c : Context) : c.layout.groupsCount = c.groupsCount := rfl

@[simp] theorem layout_groupsOffset (c : Context) : c.layout.groupsOffset = c.groupsOffset := rfl

@[simp] theorem layout_blockSize (c : Context) : c.layout.blockSize = c.blockSize := rfl

/-- The blocks, or the inodes, of a volume as a pool. -/
def pool (c : Context) (κ : Kind) : Pool where
  used g k := c.bit (c.layout.bitmap κ g) k
  free g := κ.freeField.get (c.groups g)
  total := κ.totalField.get c.super

theorem pool_used (c : Context) (κ : Kind) : (c.pool κ).used g k = c.bit (c.layout.bitmap κ g) k :=
  rfl

theorem pool_free (c : Context) (κ : Kind) : (c.pool κ).free g = κ.freeField.get (c.groups g) := rfl

theorem pool_total (c : Context) (κ : Kind) : (c.pool κ).total = κ.totalField.get c.super := rfl

def usedDirs (c : Context) (g : Nat) : Nat := Desc.usedDirsCount.get (c.groups g)

/-! ## Writes that stay in a range -/

/-- `c'` is `c` with other bytes in the `n` bytes at `o` of the device. -/
structure Touches (c : Context) (o n : Nat) (c' : Context) : Prop where
  eq : c' = { c with volume := { c.volume with bytes := c'.volume.bytes } }
  frame : ∀ x, x < o ∨ o + n ≤ x → c'.volume.bytes x = c.volume.bytes x

namespace Touches

theorem refl (c : Context) (o n : Nat) : c.Touches o n c := ⟨rfl, fun _ _ => rfl⟩

theorem wrote (hle : o ≤ off) (hend : off + m ≤ o + n) : c.Touches o n (c.wrote off m buf) :=
  ⟨rfl, fun _ hx => blit_of_not_mem (by omega)⟩

theorem trans (h : c.Touches o n c') (h' : c'.Touches o n c'') : c.Touches o n c'' := by
  refine ⟨?_, fun x hx => (h'.frame x hx).trans (h.frame x hx)⟩
  have heq := h'.eq
  rw [h.eq] at heq
  exact heq

theorem layout (h : c.Touches o n c') : c'.layout = c.layout := by
  rw [h.eq]
  rfl

theorem groups (h : c.Touches o n c') : c'.groups = c.groups := by rw [h.eq]

theorem super (h : c.Touches o n c') : c'.super = c.super := by rw [h.eq]

theorem bit (h : c.Touches o n c') (hk : k < c.blockSize * 8)
    (hapt : Layout.Apart (c.blockSize * b) c.blockSize o n) : c'.bit b k = c.bit b k := by
  have hbs : c'.blockSize = c.blockSize := congrArg Layout.blockSize h.layout
  have hbt : c'.volume.bytes (c.blockSize * b + k / 8) =
      c.volume.bytes (c.blockSize * b + k / 8) := by
    refine h.frame _ ?_
    rw [Layout.Apart] at hapt
    omega
  rw [Context.bit, Context.bit, bitAt, bitAt, blockOffset, blockOffset, hbs, hbt]

theorem stored (h : c.Touches o n c') (hs : c.Stored) (hclr : c.layout.ClearOfCounts o n) :
    c'.Stored := by
  obtain ⟨hsup, htab⟩ := hclr
  rw [Layout.Apart] at hsup htab
  have hcnt : c'.groupsCount = c.groupsCount := congrArg Layout.groupsCount h.layout
  have hoff : c'.groupsOffset = c.groupsOffset := congrArg Layout.groupsOffset h.layout
  constructor
  · intro i hi
    rw [h.super, ← hs.super i hi]
    exact h.frame _ (by omega)
  intro g hg i hi
  rw [hcnt] at hg
  have hmul : (g + 1) * DESC_SIZE ≤ c.groupsCount * DESC_SIZE := Nat.mul_le_mul_right _ hg
  rw [Nat.succ_mul] at hmul
  rw [h.groups, hoff, ← hs.groups g hg i hi]
  refine h.frame _ ?_
  simp only [layout_groupsOffset, layout_groupsCount] at htab
  omega

end Touches

/-! ## Bits -/

theorem mark_touches (hk : k < c.blockSize * 8) :
    c.Touches (c.blockSize * b) c.blockSize (c.mark b k) :=
  .wrote (Nat.le_add_right _ _) (by rw [blockOffset]; omega)

theorem unmark_touches (hk : k < c.blockSize * 8) :
    c.Touches (c.blockSize * b) c.blockSize (c.unmark b k) :=
  .wrote (Nat.le_add_right _ _) (by rw [blockOffset]; omega)

theorem bit_mark : (c.mark b k).bit b j = (c.bit b j || decide (j = k)) := bitAt_set

theorem bit_unmark : (c.unmark b k).bit b j = (c.bit b j && !decide (j = k)) := bitAt_unset

theorem apart_of_ne (h : b ≠ b') : Layout.Apart (s * b) s (s * b') s := by
  rcases Nat.lt_or_gt_of_ne h with hlt | hlt
  · exact .inl (by rw [← Nat.mul_succ]; exact Nat.mul_le_mul_left _ hlt)
  · exact .inr (by rw [← Nat.mul_succ]; exact Nat.mul_le_mul_left _ hlt)

/-! ## Committing the counts -/

/-- The context after a changed descriptor and a changed superblock are stored and committed. -/
def settle (c : Context) (g : Nat) (desc sup : Bytes) (now : Nat) : Context :=
  ((c.store g desc (Super.wtime.put sup now)).wrote (c.groupsOffset + g * DESC_SIZE)
    DESC_SIZE desc).wrote SUPER_OFFSET SUPER_SIZE (Super.wtime.put sup now)

theorem desc_end_le (hg : g < c.groupsCount) :
    g * DESC_SIZE + DESC_SIZE ≤ c.groupsCount * DESC_SIZE := by
  rw [← Nat.succ_mul]
  exact Nat.mul_le_mul_right _ hg

theorem commitCounts_store (h : c.layout.Laid) (hg : g < c.groupsCount) :
    commitCounts (c.store g desc sup) g now = c.settle g desc sup now := by
  have hend := c.desc_end_le hg
  have htab : c.groupsOffset + c.groupsCount * DESC_SIZE ≤ c.volume.size := h.groups_le
  have hge : SUPER_OFFSET + SUPER_SIZE ≤ c.groupsOffset := h.groupsOffset_ge
  have hgrp : groupCommit (c.store g desc sup) g = .ok ((c.store g desc sup).wrote
      (c.groupsOffset + g * DESC_SIZE) DESC_SIZE desc) := by
    have hdesc : (c.store g desc sup).groups g = desc := if_pos rfl
    rw [groupCommit, hdesc]
    exact devWrite_of_le (by show c.groupsOffset + _ + _ ≤ c.volume.size; omega)
  rw [commitCounts, hgrp]
  dsimp only [superCommit]
  rw [devWrite_of_le (by show _ ≤ c.volume.size; omega)]
  rfl

/-- The fields of a descriptor that place its bitmaps and its inode table are the same. -/
structure SamePlaces (d d' : Bytes) : Prop where
  blockBitmap : Desc.blockBitmap.get d' = Desc.blockBitmap.get d
  inodeBitmap : Desc.inodeBitmap.get d' = Desc.inodeBitmap.get d
  inodeTable : Desc.inodeTable.get d' = Desc.inodeTable.get d

theorem SamePlaces.put {f : Field} (hf : Desc.inodeTable.offset + Desc.inodeTable.width ≤ f.offset)
    (d : Bytes) (v : Nat) : SamePlaces d (f.put d v) where
  blockBitmap := Field.get_put_of_apart (.inl (Nat.le_trans (by decide) hf))
  inodeBitmap := Field.get_put_of_apart (.inl (Nat.le_trans (by decide) hf))
  inodeTable := Field.get_put_of_apart (.inl hf)

theorem SamePlaces.trans (h : SamePlaces d d') (h' : SamePlaces d' d'') : SamePlaces d d'' :=
  ⟨h'.1.trans h.1, h'.2.trans h.2, h'.3.trans h.3⟩

theorem settle_layout (hd : SamePlaces (c.groups g) desc)
    (hblks : Super.blocksCount.get sup = Super.blocksCount.get c.super)
    (hino : Super.inodesCount.get sup = Super.inodesCount.get c.super) :
    (c.settle g desc sup now).layout = c.layout := by
  have hblocks' : (c.settle g desc sup now).blocksCount = c.blocksCount :=
    (Field.get_put_of_apart (by decide)).trans hblks
  have hinodes' : (c.settle g desc sup now).inodesCount = c.inodesCount :=
    (Field.get_put_of_apart (by decide)).trans hino
  have hgrp (f : Field) (hf : f.get desc = f.get (c.groups g)) :
      (fun h => f.get ((c.settle g desc sup now).groups h)) = fun h => f.get (c.groups h) := by
    funext h
    show f.get (if h = g then desc else c.groups h) = _
    split
    case isTrue heq => rw [hf, heq]
    case isFalse => rfl
  simp only [layout, hblocks', hinodes', hgrp _ hd.blockBitmap, hgrp _ hd.inodeBitmap,
    hgrp _ hd.inodeTable]
  rfl

theorem settle_frame (hg : g < c.groupsCount)
    (hsup : x < SUPER_OFFSET ∨ SUPER_OFFSET + SUPER_SIZE ≤ x)
    (htab : x < c.groupsOffset ∨ c.groupsOffset + c.groupsCount * DESC_SIZE ≤ x) :
    (c.settle g desc sup now).volume.bytes x = c.volume.bytes x := by
  have hend := c.desc_end_le hg
  exact (blit_of_not_mem hsup).trans (blit_of_not_mem (by omega))

theorem settle_bit (hg : g < c.groupsCount) (hk : k < c.blockSize * 8)
    (hclr : c.layout.ClearOfCounts (c.blockSize * b) c.blockSize) :
    (c.settle g desc sup now).bit b k = c.bit b k := by
  obtain ⟨hsup, htab⟩ := hclr
  rw [Layout.Apart] at hsup htab
  simp only [layout_groupsCount, layout_groupsOffset] at htab
  have hbt : (c.settle g desc sup now).volume.bytes (c.blockSize * b + k / 8) =
      c.volume.bytes (c.blockSize * b + k / 8) := settle_frame hg (by omega) (by omega)
  show bitAt _ (c.blockSize * b) k = bitAt _ (c.blockSize * b) k
  rw [bitAt, bitAt, hbt]

theorem settle_stored (h : c.layout.Laid) (hs : c.Stored) :
    (c.settle g desc sup now).Stored := by
  have hge : SUPER_OFFSET + SUPER_SIZE ≤ c.groupsOffset := h.groupsOffset_ge
  constructor
  · intro i hi
    exact blit_of_mem hi
  intro h hh i hi
  have hsup : (c.settle g desc sup now).volume.bytes (c.groupsOffset + h * DESC_SIZE + i) =
      blit c.volume.bytes (c.groupsOffset + g * DESC_SIZE) DESC_SIZE desc
        (c.groupsOffset + h * DESC_SIZE + i) := blit_of_not_mem (by omega)
  have hgrp : (c.settle g desc sup now).groups h = if h = g then desc else c.groups h := rfl
  refine hsup.trans ?_
  rw [hgrp]
  split
  case isTrue heq =>
    rw [heq]
    exact blit_of_mem hi
  rename_i hne
  -- Descriptors of different groups do not meet.
  have hapt := apart_of_ne (s := DESC_SIZE) hne
  rw [Layout.Apart, Nat.mul_comm _ h, Nat.mul_comm _ g] at hapt
  rw [blit_of_not_mem (by omega)]
  exact hs.groups h hh i hi

/-! ## Clearing an inode -/

theorem Touches.mono (h : c.Touches o n c') (hle : o' ≤ o) (hend : o + n ≤ o' + n') :
    c.Touches o' n' c' := ⟨h.eq, fun x hx => h.frame x (by omega)⟩

theorem clearLoop_touches (hdvd : GOOD_OLD_INODE_SIZE ∣ c.inodeSize)
    (hdone : GOOD_OLD_INODE_SIZE ∣ done) :
    c.Touches off c.inodeSize (clearLoop off fuel done c).1 := by
  induction fuel generalizing c done with
  | zero => exact .refl c _ _
  | succ fuel ih =>
    rw [clearLoop]
    split
    case isFalse => exact .refl c _ _
    rename_i hlt
    cases hwr : c.devWrite (off + done) GOOD_OLD_INODE_SIZE fun _ => 0 with
    | error e => exact .refl c _ _
    | ok c1 =>
      have heq := devWrite_ok hwr
      have hend : done + GOOD_OLD_INODE_SIZE ≤ c.inodeSize := by
        obtain ⟨q, hq⟩ := hdvd
        obtain ⟨r, hr⟩ := hdone
        rw [hq, hr] at hlt ⊢
        exact Nat.mul_le_mul_left _ (Nat.lt_of_mul_lt_mul_left hlt)
      have hfst : c.Touches off c.inodeSize c1 := by
        rw [heq]
        exact .wrote (Nat.le_add_right _ _) (by omega)
      have hsz : c1.inodeSize = c.inodeSize := by rw [heq]; rfl
      have hrs := ih (hsz ▸ hdvd) (Nat.dvd_add hdone (Nat.dvd_refl _))
      rw [hsz] at hrs
      exact hfst.trans hrs

theorem inodeClear_touches (h : c.layout.Laid) (hpos : 0 < ino) (hino : ino ≤ c.inodesCount) :
    ∃ g < c.groupsCount, c.Touches (c.blockSize * c.layout.inodeTable g)
      (c.inodesPerGroup * c.inodeSize) (inodeClear c ino).1 := by
  obtain ⟨hg, hidx⟩ := h.group_of_inode (Nat.sub_one_lt_of_le hpos hino)
  have hoff : inodeOffset c ino = .ok (c.blockSize * c.layout.inodeTable
      ((ino - 1) / c.inodesPerGroup) + (ino - 1) % c.inodesPerGroup * c.inodeSize) := by
    rw [inodeOffset, if_neg (by omega)]
    rfl
  have hmul := Nat.mul_le_mul_right c.inodeSize (Nat.succ_le_of_lt hidx)
  rw [Nat.succ_mul] at hmul
  refine ⟨_, hg, ?_⟩
  rw [inodeClear, hoff]
  refine (clearLoop_touches h.inodeSize_dvd (Nat.dvd_zero _)).mono (Nat.le_add_right _ _) ?_
  rw [Nat.add_assoc]
  exact Nat.add_le_add_left hmul _

end Context

end Vex.Fs.Ext2
