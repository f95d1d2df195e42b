import Vex.Fs.Ext2Calls
import Vex.Lib.Run

/-! The accounts of an ext2 volume over whole runs of the allocator.

A `World` is a mounted volume together with which inodes were allocated as directories, which the
allocator is told again when it frees them. The free counts of the groups are 16 bits wide, and
`setup_geometry` accepts groups that do not fit them: `free_count_wraps`. Where the groups fit, and
the caller neither frees block zero nor mistakes a directory for a file, the three copies of every
count agree after every call. -/

namespace Vex.Fs.Ext2

open Lib

structure World where
  ctx : Context
  dirs : Nat → Bool

/-- A call of the allocator, at the wall clock time that stamps the superblock. -/
inductive Call
  | blockAlloc (goal now : Nat)
  | blockFree (block now : Nat)
  | inodeAlloc (parentIno : Nat) (directory : Bool) (now : Nat)
  | inodeFree (ino : Nat) (directory : Bool) (now : Nat)

namespace World

/-- What a call returns, zero for the calls that return nothing, and the world after it. -/
def call (w : World) : Call → Nat × World
  | .blockAlloc goal now =>
    ((blockAlloc w.ctx goal now).1, { w with ctx := (blockAlloc w.ctx goal now).2 })
  | .blockFree block now => (0, { w with ctx := blockFree w.ctx block now })
  | .inodeAlloc parentIno directory now =>
    let r := inodeAlloc w.ctx parentIno directory now
    (r.1, { ctx := r.2, dirs := fun i => if i = r.1 then directory else w.dirs i })
  | .inodeFree ino directory now => (0, { w with ctx := inodeFree w.ctx ino directory now })

def Step (w : World) (a : Call) (w' : World) : Prop := (w.call a).2 = w'

end World

/-- The directories among the inodes of a group that are in use. -/
def Context.dirCount (c : Context) (dirs : Nat → Bool) (g : Nat) : Nat :=
  Nat.count (fun k => (c.pool .inode).used g k = true ∧
    dirs (g * c.inodesPerGroup + k + 1) = true) c.inodesPerGroup

/-- Whether the bit of a block of the file system is set. -/
def Context.blockUsed (c : Context) (block : Nat) : Bool :=
  (c.pool .block).used ((block - c.firstDataBlock) / c.blocksPerGroup)
    ((block - c.firstDataBlock) % c.blocksPerGroup)

/-- The counts of the groups equal the clear bits of their bitmaps, the counts of the superblock
equal their sums, the used directories are counted, and the device has the same counts. -/
structure World.Accounted (w : World) : Prop where
  blocks : (w.ctx.pool .block).Balanced w.ctx.groupsCount (groupBlocks w.ctx)
  inodes : (w.ctx.pool .inode).Balanced w.ctx.groupsCount fun _ => w.ctx.inodesPerGroup
  dirs : ∀ g < w.ctx.groupsCount, w.ctx.usedDirs g = w.ctx.dirCount w.dirs g
  stored : w.ctx.Stored

/-- A volume whose accounts are in order, whose bitmaps are kept apart, which has the root inode,
and where block zero, if it is a block of the file system at all, is in use. -/
structure World.WellFormed (w : World) : Prop where
  separate : w.ctx.layout.Separate
  root : ROOT_INO ≤ w.ctx.inodesCount
  blocks : (w.ctx.pool .block).Balanced w.ctx.groupsCount (groupBlocks w.ctx)
  inodes : (w.ctx.pool .inode).Balanced w.ctx.groupsCount fun _ => w.ctx.inodesPerGroup
  dirs : ∀ g < w.ctx.groupsCount, w.ctx.usedDirs g = w.ctx.dirCount w.dirs g
  boot : w.ctx.firstDataBlock = 0 → w.ctx.blockUsed 0 = true

/-- The counts of every group fit their 16-bit fields. -/
structure Context.Fits (c : Context) : Prop where
  blocks : ∀ g < c.groupsCount, groupBlocks c g < 2 ^ 16
  inodes : c.inodesPerGroup < 2 ^ 16

/-- What a caller takes care of: block zero is not freed, and a directory is freed as one. -/
def World.Careful (w : World) : Call → Prop
  | .blockFree block _ => w.ctx.firstDataBlock = 0 → block ≠ 0
  | .inodeFree ino directory _ => directory = w.dirs ino
  | _ => True

/-- No count moved by more than one, as numbers: none wrapped. -/
structure NoWrap (c c' : Context) : Prop where
  groups : ∀ κ, ∀ g < c.groupsCount,
    (c'.pool κ).free g ≤ (c.pool κ).free g + 1 ∧ (c.pool κ).free g ≤ (c'.pool κ).free g + 1
  totals : ∀ κ, (c'.pool κ).total ≤ (c.pool κ).total + 1 ∧ (c.pool κ).total ≤ (c'.pool κ).total + 1
  dirs : ∀ g < c.groupsCount, c'.usedDirs g ≤ c.usedDirs g + 1 ∧ c.usedDirs g ≤ c'.usedDirs g + 1

/-! ## The invariant -/

/-- What holds of a volume between calls. -/
structure World.Kept (w : World) : Prop where
  sound : w.ctx.layout.Sound
  limit_lt : ∀ g < w.ctx.groupsCount, w.ctx.layout.limit g < 2 ^ 16
  inodes_lt : w.ctx.inodesPerGroup < 2 ^ 16
  pools : ∀ κ, (w.ctx.pool κ).Balanced w.ctx.groupsCount (w.ctx.layout.units κ)
  dirs : ∀ g < w.ctx.groupsCount, w.ctx.usedDirs g = w.ctx.dirCount w.dirs g
  stored : w.ctx.Stored
  boot : w.ctx.firstDataBlock = 0 → (w.ctx.pool .block).used 0 0 = true

/-- The part of `Kept` and `NoWrap` that every call keeps by the counts alone. -/
structure Moved (c c' : Context) : Prop where
  layout : c'.layout = c.layout
  stored : c.Stored → c'.Stored
  pools : ∀ κ, (c.pool κ).Balanced c.groupsCount (c.layout.units κ) →
    (c'.pool κ).Balanced c.groupsCount (c.layout.units κ)
  groups : ∀ κ, ∀ g < c.groupsCount,
    (c'.pool κ).free g ≤ (c.pool κ).free g + 1 ∧ (c.pool κ).free g ≤ (c'.pool κ).free g + 1
  totals : ∀ κ, (c'.pool κ).total ≤ (c.pool κ).total + 1 ∧ (c.pool κ).total ≤ (c'.pool κ).total + 1

variable {c c' : Context} {κ : Kind} {g h k : Nat} {w w' : World} {dirs dirs' : Nat → Bool}

theorem Moved.refl (c : Context) : Moved c c :=
  ⟨rfl, id, fun _ => id, fun _ _ _ => by omega, fun _ => by omega⟩

theorem Took.moved (ht : Took c κ g k c') : Moved c c' where
  layout := ht.layout
  stored := ht.stored
  pools κ' hp := by
    by_cases heq : κ' = κ
    · subst heq
      exact ht.takes.balanced_iff.mpr hp
    · exact (ht.others κ' heq).balanced hp
  groups κ' h hh := by
    by_cases heq : κ' = κ
    · subst heq
      have hfree := ht.takes.free h hh
      split at hfree <;> omega
    · have hfree := (ht.others κ' heq).free h hh
      omega
  totals κ' := by
    by_cases heq : κ' = κ
    · subst heq
      have htot := ht.takes.total
      omega
    · have htot := (ht.others κ' heq).total
      omega

theorem Gave.moved (ht : Gave c κ g k c') : Moved c c' where
  layout := ht.layout
  stored := ht.stored
  pools κ' hp := by
    by_cases heq : κ' = κ
    · subst heq
      exact ht.puts.balanced_iff.mp hp
    · exact (ht.others κ' heq).balanced hp
  groups κ' h hh := by
    by_cases heq : κ' = κ
    · subst heq
      have hfree := ht.puts.free h hh
      split at hfree <;> omega
    · have hfree := (ht.others κ' heq).free h hh
      omega
  totals κ' := by
    by_cases heq : κ' = κ
    · subst heq
      have htot := ht.puts.total
      omega
    · have htot := (ht.others κ' heq).total
      omega

/-! ## Directories -/

theorem Context.dirCount_le (c : Context) (dirs : Nat → Bool) (g : Nat) :
    c.dirCount dirs g ≤ c.inodesPerGroup := Nat.count_le _

theorem dirCount_congr (hl : c'.layout = c.layout)
    (hus : ∀ j < c.inodesPerGroup, (c'.pool .inode).used h j = (c.pool .inode).used h j)
    (hds : ∀ j < c.inodesPerGroup,
      dirs' (h * c.inodesPerGroup + j + 1) = dirs (h * c.inodesPerGroup + j + 1)) :
    c'.dirCount dirs' h = c.dirCount dirs h := by
  have hper : c'.inodesPerGroup = c.inodesPerGroup := congrArg Layout.inodesPerGroup hl
  rw [Context.dirCount, Context.dirCount, hper]
  exact count_congr fun j hj => by rw [hus j hj, hds j hj]

theorem inode_number_inj (hj : j < n) (hk : k < n) (heq : h * n + j + 1 = g * n + k + 1) :
    h = g ∧ j = k := by
  have hmod : j = k := by
    have hj' := Nat.mod_eq_of_lt hj
    have hk' := Nat.mod_eq_of_lt hk
    rw [← hj', ← hk', ← Nat.mul_add_mod_self_right h n j, ← Nat.mul_add_mod_self_right g n k,
      Nat.succ.inj heq]
  refine ⟨?_, hmod⟩
  have hmul : h * n = g * n := by omega
  exact Nat.eq_of_mul_eq_mul_right (Nat.lt_of_le_of_lt (Nat.zero_le _) hj) hmul

theorem Took.dirCount (ht : Took c .inode g k c') (dirs : Nat → Bool) (hh : h < c.groupsCount) :
    c'.dirCount (fun i => if i = g * c.inodesPerGroup + k + 1 then d else dirs i) h =
      c.dirCount dirs h + if h = g ∧ d then 1 else 0 := by
  have hper : c'.inodesPerGroup = c.inodesPerGroup := congrArg Layout.inodesPerGroup ht.layout
  rw [Context.dirCount, Context.dirCount, hper]
  refine (ht.takes.count_used _ hh).trans (congrArg₂ _ (count_congr fun j hj => ?_) ?_)
  · by_cases hjk : h * c.inodesPerGroup + j + 1 = g * c.inodesPerGroup + k + 1
    · obtain ⟨rfl, rfl⟩ := inode_number_inj hj ht.takes.unit hjk
      simp [ht.takes.clear]
    · rw [if_neg hjk]
  · by_cases hg : h = g <;> simp [hg]

theorem Gave.dirCount (ht : Gave c .inode g k c') (dirs : Nat → Bool) (hh : h < c.groupsCount) :
    c.dirCount dirs h = c'.dirCount dirs h +
      if h = g ∧ dirs (g * c.inodesPerGroup + k + 1) then 1 else 0 := by
  have hper : c'.inodesPerGroup = c.inodesPerGroup := congrArg Layout.inodesPerGroup ht.layout
  rw [Context.dirCount, Context.dirCount, hper]
  refine (ht.puts.count_used _ hh).trans (congrArg₂ _ rfl ?_)
  by_cases hg : h = g <;> simp [hg]

/-! ## One call -/

namespace World.Kept

section
variable (hw : w.Kept)
include hw

theorem boot_units : 0 < w.ctx.groupsCount ∧ 0 < w.ctx.layout.limit 0 := by
  have hfst := hw.sound.laid.firstDataBlock_lt
  have hper := hw.sound.laid.blocksPerGroup_pos
  refine ⟨hw.sound.laid.groupsCount_pos hw.sound.root, ?_⟩
  rw [Layout.limit]
  omega

theorem of_moved (hm : Moved w.ctx c)
    (hds : ∀ g < w.ctx.groupsCount, c.usedDirs g = c.dirCount dirs g)
    (hbo : w.ctx.firstDataBlock = 0 → (c.pool .block).used 0 0 = true) : Kept ⟨c, dirs⟩ := by
  have hcnt : c.groupsCount = w.ctx.groupsCount := congrArg Layout.groupsCount hm.layout
  have hper : c.inodesPerGroup = w.ctx.inodesPerGroup := congrArg Layout.inodesPerGroup hm.layout
  have hfst : c.firstDataBlock = w.ctx.firstDataBlock := congrArg Layout.firstDataBlock hm.layout
  constructor
  case sound => exact hm.layout ▸ hw.sound
  case limit_lt =>
    intro g hg
    rw [hm.layout]
    exact hw.limit_lt g (hcnt ▸ hg)
  case inodes_lt => exact hper ▸ hw.inodes_lt
  case pools =>
    intro κ
    rw [hcnt, hm.layout]
    exact hm.pools κ (hw.pools κ)
  case dirs => exact fun g hg => hds g (hcnt ▸ hg)
  case stored => exact hm.stored hw.stored
  case boot => exact fun h0 => hbo (hfst ▸ h0)

theorem of_eq (h : c = w.ctx) : Kept ⟨c, w.dirs⟩ ∧ NoWrap w.ctx c := by
  subst h
  exact ⟨hw, (Moved.refl w.ctx).groups, (Moved.refl w.ctx).totals, fun _ _ => by omega⟩

theorem of_blocks (hm : Moved w.ctx c)
    (hsame : Pool.Same w.ctx.groupsCount (w.ctx.layout.units .inode) (w.ctx.pool .inode)
      (c.pool .inode)) (hus : ∀ h, c.usedDirs h = w.ctx.usedDirs h)
    (hbo : w.ctx.firstDataBlock = 0 → (c.pool .block).used 0 0 = true) :
    Kept ⟨c, w.dirs⟩ ∧ NoWrap w.ctx c := by
  refine ⟨hw.of_moved hm (fun g hg => ?_) hbo, hm.groups, hm.totals,
    fun h _ => by rw [hus h]; omega⟩
  rw [hus g, hw.dirs g hg]
  exact (dirCount_congr hm.layout (hsame.used g hg) fun _ _ => rfl).symm

theorem blockTook (ht : Took w.ctx .block g k c) (hus : ∀ h, c.usedDirs h = w.ctx.usedDirs h) :
    Kept ⟨c, w.dirs⟩ ∧ NoWrap w.ctx c := by
  obtain ⟨hpos, hunit⟩ := hw.boot_units
  refine hw.of_blocks ht.moved (ht.others _ (by decide)) hus fun h0 => ?_
  rw [ht.takes.used 0 hpos 0 hunit, hw.boot h0, Bool.true_or]

theorem blockGave (ht : Gave w.ctx .block g k c) (hus : ∀ h, c.usedDirs h = w.ctx.usedDirs h)
    (hne : w.ctx.firstDataBlock = 0 → ¬(g = 0 ∧ k = 0)) :
    Kept ⟨c, w.dirs⟩ ∧ NoWrap w.ctx c := by
  obtain ⟨hpos, hunit⟩ := hw.boot_units
  refine hw.of_blocks ht.moved (ht.others _ (by decide)) hus fun h0 => ?_
  have hbo := hw.boot h0
  rw [ht.puts.used 0 hpos 0 hunit, Bool.or_eq_true] at hbo
  refine hbo.resolve_right fun heq => hne h0 ?_
  have heq := of_decide_eq_true heq
  exact ⟨heq.1.symm, heq.2.symm⟩

theorem of_inodes (hm : Moved w.ctx c)
    (hsame : Pool.Same w.ctx.groupsCount (w.ctx.layout.units .block) (w.ctx.pool .block)
      (c.pool .block)) (hds : ∀ g < w.ctx.groupsCount, c.usedDirs g = c.dirCount dirs g)
    (hus : ∀ g < w.ctx.groupsCount,
      c.usedDirs g ≤ w.ctx.usedDirs g + 1 ∧ w.ctx.usedDirs g ≤ c.usedDirs g + 1) :
    Kept ⟨c, dirs⟩ ∧ NoWrap w.ctx c := by
  obtain ⟨hpos, hunit⟩ := hw.boot_units
  refine ⟨hw.of_moved hm hds fun h0 => ?_, hm.groups, hm.totals, hus⟩
  rw [hsame.used 0 hpos 0 hunit, hw.boot h0]

theorem inodeTook (ht : Took w.ctx .inode g k c) (hus : DirsCounted w.ctx g d 1 c) :
    Kept ⟨c, fun i => if i = g * w.ctx.inodesPerGroup + k + 1 then d else w.dirs i⟩ ∧
      NoWrap w.ctx c := by
  have hcnt : ∀ h < w.ctx.groupsCount, c.usedDirs h =
      w.ctx.usedDirs h + if h = g ∧ d then 1 else 0 := by
    intro h hh
    rw [hus h]
    split
    case isFalse => rfl
    rename_i heq
    -- The new count is one of inodes of the group, so it fits.
    have hle := c.dirCount_le (fun i => if i = g * w.ctx.inodesPerGroup + k + 1 then d
      else w.dirs i) h
    rw [ht.dirCount w.dirs hh, if_pos heq, ← hw.dirs h hh] at hle
    have hper : c.inodesPerGroup = w.ctx.inodesPerGroup :=
      congrArg Layout.inodesPerGroup ht.layout
    have hlt := hw.inodes_lt
    exact Nat.mod_eq_of_lt (by omega)
  refine hw.of_inodes ht.moved (ht.others _ (by decide)) (fun h hh => ?_) fun h hh => ?_
  · rw [hcnt h hh, ht.dirCount w.dirs hh, hw.dirs h hh]
  · rw [hcnt h hh]
    split <;> omega

theorem inodeGave (ht : Gave w.ctx .inode g k c) (hus : DirsCounted w.ctx g d (2 ^ 16 - 1) c)
    (hd : d = w.dirs (g * w.ctx.inodesPerGroup + k + 1)) :
    Kept ⟨c, w.dirs⟩ ∧ NoWrap w.ctx c := by
  have hcnt : ∀ h < w.ctx.groupsCount, w.ctx.usedDirs h =
      c.usedDirs h + if h = g ∧ d then 1 else 0 := by
    intro h hh
    rw [hus h]
    split
    case isFalse => rfl
    rename_i heq
    have hds := ht.dirCount w.dirs hh
    rw [← hw.dirs h hh, if_pos (hd ▸ heq)] at hds
    have hle := w.ctx.dirCount_le w.dirs h
    rw [← hw.dirs h hh] at hle
    have hlt := hw.inodes_lt
    omega
  refine hw.of_inodes ht.moved (ht.others _ (by decide)) (fun h hh => ?_) fun h hh => ?_
  · have hds := ht.dirCount w.dirs hh
    rw [← hw.dirs h hh, hcnt h hh, hd] at hds
    omega
  · rw [hcnt h hh]
    split <;> omega

/-- **One call.** A careful call keeps the accounts and wraps no count. -/
theorem call {a : Call} (ha : w.Careful a) :
    (w.call a).2.Kept ∧ NoWrap w.ctx (w.call a).2.ctx := by
  cases a with
  | blockAlloc goal now =>
    rcases blockAlloc_spec hw.sound (hw.pools .block)
      (Prod.eta (blockAlloc w.ctx goal now)).symm with ⟨-, hsame, -⟩ | ⟨g, k, -, -, htk, hus⟩
    · exact hw.of_eq hsame
    · exact hw.blockTook htk hus
  | blockFree block now =>
    rcases blockFree_spec hw.sound (hw.pools .block) block now hw.limit_lt with
      hsame | ⟨g, k, rfl, hgave, hus⟩
    · exact hw.of_eq hsame
    · refine hw.blockGave hgave hus fun h0 heq => ha h0 ?_
      rw [h0, heq.1, heq.2, Nat.zero_mul]
  | inodeAlloc parentIno directory now =>
    rcases inodeAlloc_spec hw.sound (Prod.eta (inodeAlloc w.ctx parentIno directory now)).symm with
      ⟨hr, hsame⟩ | ⟨g, k, -, hr, htk, hus⟩
    · show Kept ⟨(inodeAlloc w.ctx parentIno directory now).2, fun i =>
        if i = (inodeAlloc w.ctx parentIno directory now).1 then directory else w.dirs i⟩ ∧
        NoWrap w.ctx (inodeAlloc w.ctx parentIno directory now).2
      rw [hsame, hr]
      refine ⟨hw.of_moved (.refl _) (fun h hh => ?_) hw.boot, (hw.of_eq rfl).2⟩
      rw [hw.dirs h hh]
      exact (dirCount_congr rfl (fun _ _ => rfl) fun j _ => if_neg (Nat.succ_ne_zero _)).symm
    · have hkt := hw.inodeTook htk hus
      rw [← hr] at hkt
      exact hkt
  | inodeFree ino directory now =>
    rcases inodeFree_spec hw.sound (hw.pools .inode) ino now directory hw.inodes_lt with
      hsame | ⟨g, k, rfl, hgave, hus⟩
    · exact hw.of_eq hsame
    · exact hw.inodeGave hgave hus ha

end

end World.Kept

theorem World.Kept.step (hw : w.Kept) (hs : Under World.Careful World.Step w a w') : w'.Kept := by
  obtain ⟨ha, rfl⟩ := hs
  exact (hw.call ha).1

/-! ## Whole runs -/

namespace World

theorem Kept.of_mount (hmnt : mount volume = .ok w.ctx) (hwf : w.WellFormed) (hfit : w.ctx.Fits) :
    w.Kept := by
  obtain ⟨hlaid, hsto⟩ := mount_ok hmnt
  have hrt : 0 < w.ctx.inodesCount := Nat.lt_of_lt_of_le (by decide) hwf.root
  have hlim : ∀ g < w.ctx.groupsCount, groupBlocks w.ctx g = w.ctx.layout.limit g :=
    fun g hg => groupBlocks_eq hlaid.toGeometry hrt hg
  constructor
  case sound => exact ⟨hlaid, hwf.separate, hrt⟩
  case limit_lt => exact fun g hg => hlim g hg ▸ hfit.blocks g hg
  case inodes_lt => exact hfit.inodes
  case pools =>
    intro κ
    cases κ with
    | block => exact hwf.blocks.congr hlim
    | inode => exact hwf.inodes
  case dirs => exact hwf.dirs
  case stored => exact hsto
  case boot =>
    intro h0
    have hbo := hwf.boot h0
    rwa [Context.blockUsed, Nat.zero_sub, Nat.zero_div, Nat.zero_mod] at hbo

theorem Kept.accounted (hw : w.Kept) : w.Accounted where
  blocks := (hw.pools .block).congr fun _ hg =>
    (groupBlocks_eq hw.sound.laid.toGeometry hw.sound.root hg).symm
  inodes := hw.pools .inode
  dirs := hw.dirs
  stored := hw.stored

/-- `ext2_block_alloc` returns a block of the file system whose bit was clear, or zero when every
block of the file system is in use. -/
structure AllocSound (c : Context) (goal now : Nat) : Prop where
  taken : (blockAlloc c goal now).1 ≠ 0 →
    c.firstDataBlock ≤ (blockAlloc c goal now).1 ∧ (blockAlloc c goal now).1 < c.blocksCount ∧
      c.blockUsed (blockAlloc c goal now).1 = false
  full : (blockAlloc c goal now).1 = 0 →
    ∀ b, c.firstDataBlock ≤ b → b < c.blocksCount → c.blockUsed b = true

theorem Kept.allocSound (hw : w.Kept) (goal now : Nat) : AllocSound w.ctx goal now := by
  rcases blockAlloc_spec hw.sound (hw.pools .block) (Prod.eta (blockAlloc w.ctx goal now)).symm with
    ⟨hr, -, htot⟩ | ⟨g, k, hk, hr, htk, -⟩
  · refine ⟨fun hne => absurd hr hne, fun _ b hle hlt => ?_⟩
    obtain ⟨hg, hbit⟩ := hw.sound.laid.group_of_block hw.sound.root
      (Nat.sub_lt_sub_right hle hlt)
    exact (hw.pools .block).total_eq_zero.mp htot _ hg _ hbit
  have hper : 0 < w.ctx.blocksPerGroup := hw.sound.laid.blocksPerGroup_pos
  have hkper : k < w.ctx.blocksPerGroup := Nat.lt_of_lt_of_le hk Layout.limit_le
  have hsub : (blockAlloc w.ctx goal now).1 - w.ctx.firstDataBlock =
      g * w.ctx.blocksPerGroup + k := by omega
  have hclr : w.ctx.blockUsed (blockAlloc w.ctx goal now).1 = false := by
    rw [Context.blockUsed, hsub, Nat.mul_comm, Nat.mul_add_div hper, Nat.mul_add_mod,
      Nat.div_eq_of_lt hkper, Nat.mod_eq_of_lt hkper, Nat.add_zero]
    exact htk.takes.clear
  refine ⟨fun _ => ⟨by omega, ?_, hclr⟩, fun h0 => ?_⟩
  · rw [hr]
    exact hw.sound.laid.block_lt hk
  -- Block zero is never free, so it is not the block that was taken.
  have hfst : w.ctx.firstDataBlock = 0 := by omega
  have hbo := hw.boot hfst
  rw [Context.blockUsed, h0, Nat.zero_sub, Nat.zero_div, Nat.zero_mod, hbo] at hclr
  exact absurd hclr (by decide)

/-- **Accounting.** From every well-formed volume that is accepted and whose groups fit their
counts, after every run of careful calls the books are in order, no further careful call wraps a
count, and `ext2_block_alloc` takes a free block of the file system unless there is none. -/
theorem books_balance {volume : Volume} {calls : List Call} (hmount : mount volume = .ok w.ctx)
    (hwf : w.WellFormed) (hfit : w.ctx.Fits) (hrun : Run (Under Careful Step) w calls w') :
    w'.Accounted ∧ (∀ a, w'.Careful a → NoWrap w'.ctx (w'.call a).2.ctx) ∧
      ∀ goal now, AllocSound w'.ctx goal now := by
  have hkept : w'.Kept := hrun.invariant (fun h hs => h.step hs) (Kept.of_mount hmount hwf hfit)
  exact ⟨hkept.accounted, fun a ha => (hkept.call ha).2, hkept.allocSound⟩

/-! ## Volumes -/

/-- A superblock with the given counts and geometry, of the good old revision. -/
def superBytes (blocks inodes freeBlocks freeInodes first log bpg ipg : Nat) : Bytes :=
  [(Super.inodesCount, inodes), (Super.blocksCount, blocks), (Super.freeBlocksCount, freeBlocks),
    (Super.freeInodesCount, freeInodes), (Super.firstDataBlock, first),
    (Super.logBlockSize, log), (Super.blocksPerGroup, bpg), (Super.inodesPerGroup, ipg),
    (Super.magic, SUPER_MAGIC)].foldl (fun b f => f.1.put b f.2) fun _ => 0

def descBytes (blockBitmap inodeBitmap inodeTable freeBlocks freeInodes usedDirs : Nat) : Bytes :=
  [(Desc.blockBitmap, blockBitmap), (Desc.inodeBitmap, inodeBitmap),
    (Desc.inodeTable, inodeTable), (Desc.freeBlocksCount, freeBlocks),
    (Desc.freeInodesCount, freeInodes), (Desc.usedDirsCount, usedDirs)].foldl
    (fun b f => f.1.put b f.2) fun _ => 0

/-- Two groups, of 24 and 15 blocks of 1 KiB and of 16 inodes each. -/
def smallVolume : Volume where
  sectorSize := 512
  sectorCount := 80
  bytes :=
    let b : Bytes := fun x =>
      -- The block bitmap and the inode bitmap of the first group.
      if x = 3072 then 0xFF else if x = 3073 then 0x03
      else if x = 5120 then 0xFF else if x = 5121 then 0x07 else 0
    let b := blit b SUPER_OFFSET SUPER_SIZE (superBytes 40 32 29 21 1 0 24 16)
    let b := blit b 2048 DESC_SIZE (descBytes 3 5 7 14 5 1)
    blit b 2080 DESC_SIZE (descBytes 4 6 9 15 16 0)

def smallContext : Context := (mount smallVolume).toOption.getD (.blank smallVolume)

def smallWorld : World := ⟨smallContext, fun i => i == ROOT_INO⟩

theorem mount_of_isOk (h : (mount volume).isOk = true) :
    mount volume = .ok ((mount volume).toOption.getD (.blank volume)) := by
  cases hm : mount volume with
  | error e =>
    rw [hm] at h
    cases h
  | ok c => rfl

theorem balanced_of_decide {p : Pool} (h : (∀ g < n, p.free g = clears (p.used g) (limit g)) ∧
      p.total = ∑ g ∈ Finset.range n, p.free g) : p.Balanced n limit := ⟨h.1, h.2⟩

theorem small_wellFormed : smallWorld.WellFormed where
  separate := by
    constructor
    all_goals decide +kernel
  root := by decide +kernel
  blocks := balanced_of_decide (by decide +kernel)
  inodes := balanced_of_decide (by decide +kernel)
  dirs := by decide +kernel
  boot := by decide +kernel

/-- A block is allocated and freed, and a directory is made and removed. -/
def smallCalls : List Call :=
  [.blockAlloc 30 7, .inodeAlloc 2 true 8, .blockFree 30 9, .inodeFree 12 true 10]

/-- The world after the first calls of `smallCalls`. -/
def smallAfter (n : Nat) : World := (smallCalls.take n).foldl (fun w a => (w.call a).2) smallWorld

theorem small_run : Run (Under Careful Step) smallWorld smallCalls (smallAfter 4) := by
  have hdir : true = (smallAfter 3).dirs 12 := by decide +kernel
  exact .cons ⟨trivial, rfl⟩ (.cons ⟨trivial, rfl⟩ (.cons ⟨fun _ => by decide, rfl⟩
    (.cons ⟨hdir, rfl⟩ .nil)))

theorem books_balance_small : mount smallVolume = .ok smallWorld.ctx ∧
    (smallAfter 3).ctx.usedDirs 0 = 2 ∧ (smallAfter 4).Accounted ∧
      AllocSound (smallAfter 4).ctx 30 11 := by
  have hmount : mount smallVolume = .ok smallWorld.ctx := mount_of_isOk (by decide +kernel)
  have hfit : smallWorld.ctx.Fits := ⟨by decide +kernel, by decide +kernel⟩
  obtain ⟨hacc, -, halloc⟩ := books_balance hmount small_wellFormed hfit small_run
  exact ⟨hmount, by decide +kernel, hacc, halloc 30 11⟩

/-! ## Groups that do not fit -/

/-- Two groups of 65536 blocks of 8 KiB. The first holds everything but one block of data, which is
the first of the second group. -/
def bigVolume : Volume where
  sectorSize := 512
  sectorCount := 2097152
  bytes :=
    let b : Bytes := fun x =>
      if x = 16384 then 0xFF else if x = 24576 then 0x01
      else if x = 32768 then 0xFF else if x = 32769 then 0x07 else 0
    let b := blit b SUPER_OFFSET SUPER_SIZE (superBytes 131072 128 131063 117 0 3 65536 64)
    let b := blit b 8192 DESC_SIZE (descBytes 2 4 6 65528 53 1)
    blit b 8224 DESC_SIZE (descBytes 3 5 7 65535 64 0)

def bigWorld : World :=
  ⟨(mount bigVolume).toOption.getD (.blank bigVolume), fun i => i == ROOT_INO⟩

theorem big_mount : mount bigVolume = .ok bigWorld.ctx := mount_of_isOk (by decide +kernel)

theorem bigVolume_bytes (h : 16384 ≤ x) : bigVolume.bytes x =
    if x = 16384 then 0xFF else if x = 24576 then 0x01
    else if x = 32768 then 0xFF else if x = 32769 then 0x07 else 0 := by
  refine (blit_of_not_mem (.inr (Nat.le_trans (by decide) h))).trans ?_
  refine (blit_of_not_mem (.inr (Nat.le_trans (by decide) h))).trans ?_
  exact blit_of_not_mem (.inr (Nat.le_trans (by decide) h))

theorem big_used (hg : g < 2) (hk : k < 65536) :
    (bigWorld.ctx.pool .block).used g k = decide (k < if g = 0 then 8 else 1) := by
  have hblk : ∀ g < 2, bigWorld.ctx.blockOffset (bigWorld.ctx.layout.bitmap .block g) =
      8192 * (g + 2) := by decide +kernel
  have hfst : ∀ j < 8, getBit 0xFF j = decide (j < 8) := by decide
  have hsecond : ∀ j < 8, getBit 0x01 j = decide (j < 1) := by decide
  rw [Context.pool_used, Context.bit, hblk g hg, mount_volume big_mount, bitAt,
    bigVolume_bytes (by omega)]
  have hcas : g = 0 ∨ g = 1 := by omega
  by_cases hbt : k < 8
  · have hdiv : k / 8 = 0 := by omega
    have hmod : k % 8 = k := by omega
    rw [hdiv, hmod]
    rcases hcas with rfl | rfl
    · exact hfst k hbt
    · exact hsecond k hbt
  · rw [if_neg (by omega), if_neg (by omega), if_neg (by omega), if_neg (by omega), getBit_zero]
    rcases hcas with rfl | rfl <;> simp <;> omega

theorem big_clears (hg : g < 2) :
    clears ((bigWorld.ctx.pool .block).used g) 65536 = 65536 - if g = 0 then 8 else 1 :=
  clears_of_prefix fun _ hk => big_used hg hk

theorem big_wellFormed : bigWorld.WellFormed where
  separate := by
    constructor
    all_goals decide +kernel
  root := by decide +kernel
  blocks := by
    have hcnt : bigWorld.ctx.groupsCount = 2 := by decide +kernel
    have hlim : ∀ g < 2, groupBlocks bigWorld.ctx g = 65536 := by decide +kernel
    have hfree : ∀ g < 2, (bigWorld.ctx.pool .block).free g = 65536 - if g = 0 then 8 else 1 := by
      decide +kernel
    refine ⟨fun g hg => ?_, by decide +kernel⟩
    rw [hcnt] at hg
    rw [hlim g hg, hfree g hg, big_clears hg]
  inodes := balanced_of_decide (by decide +kernel)
  dirs := by decide +kernel
  boot := by decide +kernel

theorem big_freed (hs : bigWorld.ctx.layout.Sound) (hk : k < 65536) :
    ((bigWorld.call (.blockFree 65536 7)).2.ctx.pool .block).used 1 k = false := by
  have hlim : bigWorld.ctx.layout.limit 1 = 65536 := by decide +kernel
  have hcl : (bigWorld.call (.blockFree 65536 7)).2.ctx = putBlock bigWorld.ctx 1 0 7 := by
    have hin : ¬(65536 < bigWorld.ctx.firstDataBlock ∨ 65536 ≥ bigWorld.ctx.blocksCount) := by
      decide +kernel
    have hgrp : (65536 - bigWorld.ctx.firstDataBlock) / bigWorld.ctx.blocksPerGroup = 1 ∧
        (65536 - bigWorld.ctx.firstDataBlock) % bigWorld.ctx.blocksPerGroup = 0 := by
      decide +kernel
    show blockFree bigWorld.ctx 65536 7 = _
    rw [blockFree, if_neg hin, hgrp.1, hgrp.2]
  have hok : (bitmapPut bigWorld.ctx (Desc.blockBitmap.get (bigWorld.ctx.groups 1)) 0).isOk =
      true := by decide +kernel
  rw [hcl, putBlock]
  split
  case h_1 e herr =>
    rw [herr] at hok
    cases hok
  rename_i c1 hput
  obtain ⟨-, rfl⟩ := bitmapPut_ok hput
  have hr := returnBlock_rebooks hs 7 (g := 1) (k := 0) (by decide +kernel) (by omega)
  have hunit : k < bigWorld.ctx.layout.units .block 1 := Nat.lt_of_lt_of_eq hk hlim.symm
  refine (hr.pool_used hs (by decide +kernel) hunit).trans ?_
  split
  case isTrue => rfl
  case isFalse hne =>
    have hpos : ¬k < 1 := fun hlt => hne ⟨rfl, rfl, by omega⟩
    rw [big_used (by decide) hk]
    exact decide_eq_false hpos

/-- A well-formed volume that is accepted, and a legal call: freeing the one block in use of a group
of 65536 blocks leaves its count at zero while every bit of its bitmap is clear. -/
theorem free_count_wraps : mount bigVolume = .ok bigWorld.ctx ∧ bigWorld.WellFormed ∧
    bigWorld.Careful (.blockFree 65536 7) ∧
    ((bigWorld.call (.blockFree 65536 7)).2.ctx.pool .block).free 1 = 0 ∧
    clears (((bigWorld.call (.blockFree 65536 7)).2.ctx.pool .block).used 1)
      (groupBlocks (bigWorld.call (.blockFree 65536 7)).2.ctx 1) = 65536 := by
  have hlaid := (mount_ok big_mount).1
  have hsound : bigWorld.ctx.layout.Sound := ⟨hlaid, big_wellFormed.separate, by decide +kernel⟩
  refine ⟨big_mount, big_wellFormed, fun _ => by decide, by decide +kernel, ?_⟩
  have hlimit : groupBlocks (bigWorld.call (.blockFree 65536 7)).2.ctx 1 = 65536 := by
    decide +kernel
  rw [hlimit]
  refine clears_of_prefix (m := 0) fun k hk => ?_
  rw [big_freed hsound hk]
  exact (decide_eq_false (Nat.not_lt_zero k)).symm

end World

end Vex.Fs.Ext2
