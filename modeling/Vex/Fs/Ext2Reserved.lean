import Vex.Fs.Ext2Accounting

/-! The reserved inodes of an ext2 volume. `ext2_inode_alloc` skips the inodes below `s_first_ino`
in group 0, where it says they all sit, and `ext2_inode_free` refuses every one of them.
`setup_geometry` accepts groups that are too small for that. -/

namespace Vex.Fs.Ext2

open Lib World

variable {c c' : Context} {g k now : Nat}

/-- Whether the bit of an inode is set. -/
def Context.inodeUsed (c : Context) (ino : Nat) : Bool :=
  (c.pool .inode).used ((ino - 1) / c.inodesPerGroup) ((ino - 1) % c.inodesPerGroup)

/-- The inode `r`, which takes `c` to `c'`, is a free one that is not reserved, and to free it at
`later` puts the bitmaps and the counts back. -/
structure Context.Gives (c c' : Context) (r : Nat) (directory : Bool) (later : Nat) : Prop where
  first : c.firstIno ≤ r
  last : r ≤ c.inodesCount
  clear : c.inodeUsed r = false
  set : c'.inodeUsed r = true
  back : Pool.Same c.groupsCount (fun _ => c.inodesPerGroup) (c.pool .inode)
    ((inodeFree c' r directory later).pool .inode)
  dirs : ∀ g < c.groupsCount, (inodeFree c' r directory later).usedDirs g = c.usedDirs g

/-- Every inode that is reserved and not in group 0 is in use. -/
def Context.ReservedUsed (c : Context) : Prop :=
  ∀ g < c.groupsCount, 0 < g → ∀ k < c.inodesPerGroup,
    g * c.inodesPerGroup + k + 1 < c.firstIno → (c.pool .inode).used g k = true

instance : Decidable c.ReservedUsed := inferInstanceAs (Decidable (∀ g < _, _ → ∀ k < _, _ → _))

theorem inode_split (hk : k < c.inodesPerGroup) :
    (g * c.inodesPerGroup + k + 1 - 1) / c.inodesPerGroup = g ∧
      (g * c.inodesPerGroup + k + 1 - 1) % c.inodesPerGroup = k := by
  have hper : 0 < c.inodesPerGroup := Nat.zero_lt_of_lt hk
  rw [Nat.add_sub_cancel, Nat.mul_comm, Nat.mul_add_div hper, Nat.mul_add_mod, Nat.div_eq_of_lt hk,
    Nat.mod_eq_of_lt hk]
  exact ⟨rfl, rfl⟩

section
variable (hs : c.layout.Sound)
  (hbal : (c.pool .inode).Balanced c.groupsCount fun _ => c.inodesPerGroup)
include hs hbal

theorem Took.gives (later : Nat) (ht : Took c .inode g k c')
    (hds : DirsCounted c g directory 1 c') (hfst : c.firstIno ≤ g * c.inodesPerGroup + k + 1) :
    c.Gives c' (g * c.inodesPerGroup + k + 1) directory later := by
  have hk : k < c.inodesPerGroup := ht.takes.unit
  have hg := ht.takes.group
  have hper : c'.inodesPerGroup = c.inodesPerGroup := congrArg Layout.inodesPerGroup ht.layout
  have hgrp : c'.groupsCount = c.groupsCount := congrArg Layout.groupsCount ht.layout
  have hset : (c'.pool .inode).used g k = true := by simp [ht.takes.used g hg k hk]
  have hle := (hs.inode_number hg hk).1
  obtain ⟨hdiv, hmod⟩ := inode_split (g := g) hk
  have hbal' : (c'.pool .inode).Balanced c'.groupsCount (c'.layout.units .inode) := by
    rw [hgrp, ht.layout]
    exact ht.takes.balanced_iff.mpr hbal
  -- The count was one higher in 16 bits before.
  have hfit : (c'.pool .inode).free g + 1 < 2 ^ 16 := by
    have hfree := ht.takes.free g hg
    have hlt : (c.pool .inode).free g < 256 ^ 2 := le_lt
    rw [if_pos rfl] at hfree
    omega
  have hcl : inodeFree c' (g * c.inodesPerGroup + k + 1) directory later =
      putInode c' g k later directory := by
    have hino : c'.firstIno = c.firstIno := congrArg Layout.firstIno ht.layout
    have hcnt : c'.inodesCount = c.inodesCount := congrArg Layout.inodesCount ht.layout
    rw [inodeFree, if_neg (by omega), hper, hdiv, hmod]
  obtain ⟨hgave, hbk⟩ := putInode_of_used (ht.layout ▸ hs) (hgrp ▸ hg) hbal' later directory
    (hper ▸ hk) hset hfit
  have hputs := hgave.puts
  rw [hgrp, ht.layout] at hputs
  constructor
  case first => exact hfst
  case last => exact hle
  case clear => rw [Context.inodeUsed, hdiv, hmod, ht.takes.clear]
  case set => rw [Context.inodeUsed, hper, hdiv, hmod, hset]
  case back =>
    rw [hcl]
    refine ⟨fun h hh j hj => ?_, fun h hh => ?_, ?_⟩
    · have hus := ht.takes.used h hh j hj
      rw [hputs.used h hh j hj] at hus
      by_cases heq : h = g ∧ j = k
      · rw [heq.1, heq.2, ht.takes.clear, hputs.clear]
      · simpa [heq] using hus
    · rw [hputs.free h hh, ht.takes.free h hh]
    · rw [hputs.total, ht.takes.total]
  case dirs =>
    intro h hh
    have hlt : c.usedDirs h < 256 ^ 2 := le_lt
    rw [hcl, hbk h, hds h]
    split <;> omega

theorem inodeAlloc_first (now : Nat) (hg : g < c.groupsCount) (hpos : 0 < g)
    (hk : k < c.inodesPerGroup) (hclr : (c.pool .inode).used g k = false) :
    ∃ j ≤ k, (inodeAlloc c (g * c.inodesPerGroup + 1) false now).1 =
      g * c.inodesPerGroup + j + 1 := by
  have hper : 0 < c.inodesPerGroup := Nat.zero_lt_of_lt hk
  have hdev : c.blockSize * c.layout.bitmap .inode g + c.blockSize ≤ c.volume.size :=
    hs.laid.bitmap_le hg
  have hbi : c.inodesPerGroup ≤ c.blockSize * 8 := hs.laid.inodesPerGroup_le
  have htk : ∃ j ≤ k, bitmapTake c (Desc.inodeBitmap.get (c.groups g)) 0 0 c.inodesPerGroup =
      .ok (j, c.mark (c.layout.bitmap .inode g) j) :=
    bitmapTake_le (by show c.blockSize * c.layout.bitmap .inode g + _ ≤ _; omega) (Nat.zero_le k) hk
      hclr
  obtain ⟨j, hj, htk⟩ := htk
  refine ⟨j, hj, ?_⟩
  have hfree : Desc.freeInodesCount.get (c.groups g) ≠ 0 :=
    Nat.ne_of_gt ((hbal.free_pos hg).mpr ⟨k, hk, hclr⟩)
  have htot : Super.freeInodesCount.get c.super ≠ 0 := fun h0 => by
    rw [hbal.total_eq_zero.mp h0 g hg k hk] at hclr
    cases hclr
  have hsta : inodeStart c (g * c.inodesPerGroup + 1) false = g := by
    have hle := (hs.inode_number hg hper).1
    rw [inodeStart, if_neg (by decide), if_pos (by omega)]
    exact (inode_split (g := g) hper).1
  have htn : u32 (g + 0) % c.groupsCount = g := by
    have hsmall := groupsCount_small hs
    rw [u32, Nat.add_zero, Nat.mod_eq_of_lt (b := 2 ^ 32) (by omega), Nat.mod_eq_of_lt hg]
  have hfrom : inodeFrom c now false g =
      some (bookInode (c.mark (c.layout.bitmap .inode g) j) g j now false) := by
    have hbit : firstBit c g = 0 := if_neg (by omega)
    rw [inodeFrom, if_neg hfree, hbit, htk]
  obtain ⟨n, hn⟩ := Nat.exists_eq_succ_of_ne_zero (Nat.ne_of_gt (Nat.zero_lt_of_lt hg))
  rw [inodeAlloc, if_neg htot, hsta, firstGroup, hn, List.range_succ_eq_map, ← hn,
    List.findSome?_cons, htn, hfrom]
  exact (hs.inode_number hg (Nat.lt_of_le_of_lt hj hk)).2

end

/-- **Reserved inodes.** On a volume that is accepted, with the free counts in agreement with the
inode bitmaps, every inode that `ext2_inode_alloc` returns is a free one from `s_first_ino` on that
`ext2_inode_free` gives back, exactly if no reserved inode outside group 0 is free. -/
theorem inodeAlloc_gives_iff {volume : Volume} (hmount : mount volume = .ok c)
    (hsep : c.layout.Separate)
    (hbal : (c.pool .inode).Balanced c.groupsCount fun _ => c.inodesPerGroup) :
    (∀ parent directory now later, (inodeAlloc c parent directory now).1 ≠ 0 →
      c.Gives (inodeAlloc c parent directory now).2 (inodeAlloc c parent directory now).1
        directory later) ↔ c.ReservedUsed := by
  have hlaid := (mount_ok hmount).1
  rcases Nat.eq_zero_or_pos c.inodesCount with hzero | hroot
  · -- Without inodes there is no group, and nothing is given out.
    have hper : 0 < c.inodesPerGroup := hlaid.inodesPerGroup_pos
    have hnone : c.groupsCount = 0 := by
      have hprod : c.groupsCount * c.inodesPerGroup = 0 := hlaid.inodesCount_eq.trans hzero
      exact (Nat.mul_eq_zero.mp hprod).resolve_right (Nat.ne_of_gt hper)
    refine iff_of_true (fun parent directory now later hne => absurd ?_ hne) fun g hg => by omega
    have htotal : Super.freeInodesCount.get c.super = 0 := by
      refine hbal.total.trans ?_
      rw [hnone, Finset.sum_range_zero]
    rw [inodeAlloc, if_pos htotal]
  have hs : c.layout.Sound := ⟨hlaid, hsep, hroot⟩
  constructor
  · intro hall g hg hpos k hk hlt
    by_contra hclear
    obtain ⟨j, hj, hr⟩ := inodeAlloc_first hs hbal 0 hg hpos hk (Bool.eq_false_iff.mpr hclear)
    have hfirst := (hall (g * c.inodesPerGroup + 1) false 0 0 (by omega)).first
    omega
  · intro hused parent directory now later hne
    rcases inodeAlloc_spec hs (Prod.eta (inodeAlloc c parent directory now)).symm with
      ⟨hr, -⟩ | ⟨g, k, hle, hr, htook, hdirs⟩
    · exact absurd hr hne
    rw [hr]
    refine htook.gives hs hbal later hdirs ?_
    rcases Nat.eq_zero_or_pos g with rfl | hpos
    · rw [firstBit, if_pos rfl] at hle
      omega
    by_contra hlt
    have hset := hused g htook.takes.group hpos k htook.takes.unit (by omega)
    rw [htook.takes.clear] at hset
    cases hset

/-- Sixteen inodes a group hold all that are reserved. -/
theorem inodeAlloc_gives_small : (inodeAlloc World.smallContext 2 true 7).1 = 17 ∧
    World.smallContext.Gives (inodeAlloc World.smallContext 2 true 7).2 17 true 8 := by
  have hr : (inodeAlloc smallContext 2 true 7).1 = 17 := by decide +kernel
  have hmount : mount smallVolume = .ok smallContext := mount_of_isOk (by decide +kernel)
  have hall := (inodeAlloc_gives_iff hmount small_wellFormed.separate
    small_wellFormed.inodes).mpr (by decide +kernel)
  refine ⟨hr, ?_⟩
  have hgives := hall 2 true 7 8 (by rw [hr]; decide)
  rwa [hr] at hgives

/-- The small volume with eight inodes a group; those of the first group are in use. -/
def crampedVolume : Volume :=
  { World.smallVolume with
    bytes :=
      let b := blit World.smallVolume.bytes SUPER_OFFSET SUPER_SIZE
        (World.superBytes 40 16 29 8 1 0 24 8)
      let b := blit b 2048 DESC_SIZE (World.descBytes 3 5 7 14 0 1)
      blit b 2080 DESC_SIZE (World.descBytes 4 6 8 15 8 0) }

def crampedContext : Context := (mount crampedVolume).toOption.getD (.blank crampedVolume)

/-- With the books in order `ext2_inode_alloc` gives out inode 9, which is reserved, and
`ext2_inode_free` does not take it back. -/
theorem reserved_given_out : mount crampedVolume = .ok crampedContext ∧
    crampedContext.layout.Separate ∧
    (crampedContext.pool .inode).Balanced crampedContext.groupsCount
      (fun _ => crampedContext.inodesPerGroup) ∧
    (inodeAlloc crampedContext 2 false 7).1 = 9 ∧ crampedContext.firstIno = 11 ∧
    (inodeFree (inodeAlloc crampedContext 2 false 7).2 9 false 8).inodeUsed 9 = true := by
  refine ⟨mount_of_isOk (by decide +kernel), ?_, balanced_of_decide (by decide +kernel),
    by decide +kernel, by decide +kernel, by decide +kernel⟩
  constructor
  all_goals decide +kernel

end Vex.Fs.Ext2
