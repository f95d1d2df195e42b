import Vex.Errno
import Vex.Lib.Bytes

/-! The ext2 allocator: `ext2_alloc.c`, and the parts of `ext2.c` and `ext2_inode.c` it rests on.

The superblock and the group descriptors are the bytes that are read from and written to the
device, with little-endian fields. The device is its bytes; a transfer that reaches beyond its end
fails, every other one succeeds. Numbers are natural numbers, cut to their width where the source
can leave it: `u32` for the `uint32_t` arithmetic, and the width of the field for what is stored. -/

namespace Vex.Fs.Ext2

open Lib

abbrev SUPER_OFFSET : Nat := 1024
abbrev SUPER_MAGIC : Nat := 0xEF53
abbrev MIN_BLOCK_LOG_SIZE : Nat := 10
abbrev MAX_BLOCK_LOG_SIZE : Nat := 16
abbrev DYNAMIC_REV : Nat := 1
abbrev GOOD_OLD_FIRST_INO : Nat := 11
abbrev GOOD_OLD_INODE_SIZE : Nat := 128
abbrev FEATURE_INCOMPAT_SUPP : Nat := 0x2
abbrev ROOT_INO : Nat := 2

/-- `sizeof(ext2_superblock_t)` and `sizeof(ext2_group_desc_t)`. -/
abbrev SUPER_SIZE : Nat := 1024
abbrev DESC_SIZE : Nat := 32

/-- The value of a `uint32_t` expression. -/
def u32 (n : Nat) : Nat := n % 2 ^ 32

/-! `ext2_superblock_t`, the fields that are used. -/
namespace Super

def inodesCount : Field := ⟨0, 4⟩
def blocksCount : Field := ⟨4, 4⟩
def freeBlocksCount : Field := ⟨12, 4⟩
def freeInodesCount : Field := ⟨16, 4⟩
def firstDataBlock : Field := ⟨20, 4⟩
def logBlockSize : Field := ⟨24, 4⟩
def blocksPerGroup : Field := ⟨32, 4⟩
def inodesPerGroup : Field := ⟨40, 4⟩
def wtime : Field := ⟨48, 4⟩
def magic : Field := ⟨56, 2⟩
def creatorOs : Field := ⟨72, 4⟩
def revLevel : Field := ⟨76, 4⟩
def firstIno : Field := ⟨84, 4⟩
def inodeSize : Field := ⟨88, 2⟩
def featureIncompat : Field := ⟨96, 4⟩

end Super

/-! `ext2_group_desc_t`. -/
namespace Desc

def blockBitmap : Field := ⟨0, 4⟩
def inodeBitmap : Field := ⟨4, 4⟩
def inodeTable : Field := ⟨8, 4⟩
def freeBlocksCount : Field := ⟨12, 2⟩
def freeInodesCount : Field := ⟨14, 2⟩
def usedDirsCount : Field := ⟨16, 2⟩

end Desc

/-- `block_interface_t`, with what the device node reads and writes through it. -/
structure Volume where
  sectorSize : Nat
  sectorCount : Nat
  bytes : Bytes

def Volume.size (v : Volume) : Nat := v.sectorCount * v.sectorSize

/-- `ext2_vfs_context_t`. Only the first `groupsCount` descriptors exist. -/
structure Context where
  volume : Volume
  super : Bytes
  groups : Nat → Bytes
  creatorOs : Nat
  blockSize : Nat
  sectorsPerBlock : Nat
  addrPerBlock : Nat
  inodeSize : Nat
  groupsOffset : Nat
  groupsCount : Nat
  blocksPerGroup : Nat
  inodesPerGroup : Nat
  firstDataBlock : Nat
  firstIno : Nat

namespace Context

def blocksCount (c : Context) : Nat := Super.blocksCount.get c.super

def inodesCount (c : Context) : Nat := Super.inodesCount.get c.super

/-- `ext2_block_offset`. -/
def blockOffset (c : Context) (block : Nat) : Nat := c.blockSize * block

/-- `fcache_dev_read`. -/
def devRead (c : Context) (offset size : Nat) : Except Errno Bytes :=
  if offset + size ≤ c.volume.size then .ok (window c.volume.bytes offset size)
  else .error Errno.EIO

/-- `fcache_dev_write`. -/
def devWrite (c : Context) (offset size : Nat) (buffer : Bytes) : Except Errno Context :=
  if offset + size ≤ c.volume.size then
    .ok { c with volume := { c.volume with bytes := blit c.volume.bytes offset size buffer } }
  else .error Errno.EIO

end Context

/-! ## Mounting -/

def readSuper (c : Context) : Except Errno Context :=
  (c.devRead SUPER_OFFSET SUPER_SIZE).map fun super => { c with super := super }

def setupGeometry (c : Context) : Except Errno Context :=
  let revLevel := Super.revLevel.get c.super
  let logBlockSize := Super.logBlockSize.get c.super
  let blockSize := 1 <<< (MIN_BLOCK_LOG_SIZE + logBlockSize)
  let firstDataBlock := Super.firstDataBlock.get c.super
  let blocksPerGroup := Super.blocksPerGroup.get c.super
  let inodesPerGroup := Super.inodesPerGroup.get c.super
  let bitsPerBlock := blockSize * 8
  let sectorsPerBlock := blockSize / c.volume.sectorSize
  let groupsCount := u32 (c.blocksCount - firstDataBlock + blocksPerGroup - 1) / blocksPerGroup
  let dynamic := revLevel = DYNAMIC_REV
  let inodeSize := if dynamic then Super.inodeSize.get c.super else GOOD_OLD_INODE_SIZE
  let firstIno := if dynamic then Super.firstIno.get c.super else GOOD_OLD_FIRST_INO
  let incompat := Super.featureIncompat.get c.super
  if Super.magic.get c.super ≠ SUPER_MAGIC then .error .EINVAL
  else if revLevel > DYNAMIC_REV then .error .EINVAL
  else if logBlockSize > MAX_BLOCK_LOG_SIZE - MIN_BLOCK_LOG_SIZE then .error .EINVAL
  else if blockSize % c.volume.sectorSize ≠ 0 then .error .EINVAL
  else if blocksPerGroup = 0 ∨ blocksPerGroup > bitsPerBlock ∨ inodesPerGroup = 0 ∨
      inodesPerGroup > bitsPerBlock then .error .EINVAL
  else if firstDataBlock ≠ SUPER_OFFSET / blockSize ∨ firstDataBlock ≥ c.blocksCount then
    .error .EINVAL
  else if c.blocksCount > c.volume.sectorCount / sectorsPerBlock then .error .EINVAL
  else if groupsCount * inodesPerGroup ≠ c.inodesCount then .error .EINVAL
  else if dynamic ∧ (inodeSize < GOOD_OLD_INODE_SIZE ∨ inodeSize > blockSize ∨
      inodeSize &&& (inodeSize - 1) ≠ 0) then .error .EINVAL
  else if dynamic ∧ (firstIno ≤ ROOT_INO ∨ firstIno > c.inodesCount) then .error .EINVAL
  else if dynamic ∧ incompat &&& (2 ^ 32 - 1 - FEATURE_INCOMPAT_SUPP) ≠ 0 then .error .EINVAL
  else .ok { c with
    creatorOs := Super.creatorOs.get c.super
    blockSize := blockSize
    sectorsPerBlock := sectorsPerBlock
    addrPerBlock := blockSize / 4
    inodeSize := inodeSize
    groupsOffset := blockSize * (firstDataBlock + 1)
    groupsCount := groupsCount
    blocksPerGroup := blocksPerGroup
    inodesPerGroup := inodesPerGroup
    firstDataBlock := firstDataBlock
    firstIno := firstIno }

def groupBlockValid (c : Context) (block count : Nat) : Bool :=
  c.firstDataBlock ≤ block && block < c.blocksCount && count ≤ c.blocksCount - block

def loadGroups (c : Context) : Except Errno Context := do
  let table ← c.devRead c.groupsOffset (c.groupsCount * DESC_SIZE)
  let groups := fun i => window table (i * DESC_SIZE) DESC_SIZE
  let tableSize := c.inodesPerGroup * c.inodeSize
  let tableBlocks := u32 ((tableSize + c.blockSize - 1) / c.blockSize)
  let valid := fun i =>
    groupBlockValid c (Desc.blockBitmap.get (groups i)) 1 &&
    groupBlockValid c (Desc.inodeBitmap.get (groups i)) 1 &&
    groupBlockValid c (Desc.inodeTable.get (groups i)) tableBlocks
  if (List.range c.groupsCount).all valid then .ok { c with groups := groups }
  else .error .EINVAL

/-- The zeroed context of `ext2_mount`. -/
def Context.blank (volume : Volume) : Context :=
  ⟨volume, fun _ => 0, fun _ _ => 0, 0, 0, 0, 0, 0, 0, 0, 0, 0, 0, 0⟩

/-- What `ext2_mount` does before it looks at the root directory. -/
def mount (volume : Volume) : Except Errno Context := do
  let c ← readSuper (.blank volume)
  let c ← setupGeometry c
  loadGroups c

/-! ## Bitmaps -/

def groupBlocks (c : Context) (group : Nat) : Nat :=
  let first := u32 (c.firstDataBlock + group * c.blocksPerGroup)
  let count := u32 (c.blocksCount + 2 ^ 32 - first)
  if count > c.blocksPerGroup then c.blocksPerGroup else count

/-- The loop of `find_clear_bit`; every turn moves `bit`, so `limit - start` turns suffice. -/
def findClearLoop (bitmap : Bytes) (limit : Nat) : Nat → Nat → Option Nat
  | 0, _ => none
  | fuel + 1, bit =>
    if bit < limit then
      let byte := bitmap (bit / 8)
      if byte = 0xFF ∧ bit % 8 = 0 then findClearLoop bitmap limit fuel (bit + 8)
      else if getBit byte (bit % 8) = false then some bit
      else findClearLoop bitmap limit fuel (bit + 1)
    else none

def findClearBit (bitmap : Bytes) (start limit : Nat) : Option Nat :=
  findClearLoop bitmap limit (limit - start) start

/-- `sizeof(chunk)`. -/
abbrev CHUNK_SIZE : Nat := 256

/-- The loop of `scan_bitmap`. -/
def scanLoop (c : Context) (offset limit : Nat) : Nat → Nat → Except Errno Nat
  | 0, _ => .error .ENOSPC
  | fuel + 1, bit =>
    if bit < limit then do
      let firstByte := bit / 8
      let chunkEnd := min ((firstByte + CHUNK_SIZE) * 8) limit
      let chunk ← c.devRead (offset + firstByte) ((chunkEnd + 7) / 8 - firstByte)
      match findClearBit chunk (bit - firstByte * 8) (chunkEnd - firstByte * 8) with
      | some found => .ok (firstByte * 8 + found)
      | none => scanLoop c offset limit fuel chunkEnd
    else .error .ENOSPC

def scanBitmap (c : Context) (offset start limit : Nat) : Except Errno Nat :=
  scanLoop c offset limit (limit - start) start

/-- The search of `bitmap_take`: looks in `[start, limit)` first, then wraps around to
`[first, start)`. -/
def scanWrapped (c : Context) (offset first start limit : Nat) : Except Errno Nat :=
  match scanBitmap c offset start limit with
  | .error .ENOSPC => scanBitmap c offset first start
  | r => r

def bitmapTake (c : Context) (bitmapBlock first start limit : Nat) :
    Except Errno (Nat × Context) := do
  let offset := c.blockOffset bitmapBlock
  let bit ← scanWrapped c offset first start limit
  let byte ← c.devRead (offset + bit / 8) 1
  let c ← c.devWrite (offset + bit / 8) 1 fun _ => setBit (byte 0) (bit % 8)
  pure (bit, c)

def bitmapPut (c : Context) (bitmapBlock bit : Nat) : Except Errno Context := do
  let offset := c.blockOffset bitmapBlock + bit / 8
  let byte ← c.devRead offset 1
  if getBit (byte 0) (bit % 8) = false then .error .EINVAL
  else c.devWrite offset 1 fun _ => unsetBit (byte 0) (bit % 8)

/-! ## Counts -/

/-- `ext2_group_commit`. -/
def groupCommit (c : Context) (group : Nat) : Except Errno Context :=
  c.devWrite (c.groupsOffset + group * DESC_SIZE) DESC_SIZE (c.groups group)

/-- `ext2_super_commit` at wall clock time `now`; the stamp stays when the write fails. -/
def superCommit (c : Context) (now : Nat) : Context × Except Errno Unit :=
  let c := { c with super := Super.wtime.put c.super now }
  match c.devWrite SUPER_OFFSET SUPER_SIZE c.super with
  | .ok c => (c, .ok ())
  | .error e => (c, .error e)

def commitCounts (c : Context) (group now : Nat) : Context :=
  match groupCommit c group with
  | .ok c => (superCommit c now).1
  | .error _ => c

/-- Stores a changed descriptor and a changed superblock in memory. -/
def Context.store (c : Context) (group : Nat) (desc super : Bytes) : Context :=
  { c with groups := fun g => if g = group then desc else c.groups g, super := super }

/-- The loops of `ext2_block_alloc` and `ext2_inode_alloc`: the groups in turn from `startGroup`,
until `attempt` takes something from one. An attempt that fails changes nothing. -/
def firstGroup (c : Context) (startGroup : Nat) (attempt : Nat → Nat → Option (Nat × Context)) :
    Option (Nat × Context) :=
  (List.range c.groupsCount).findSome? fun i => attempt i (u32 (startGroup + i) % c.groupsCount)

/-- The end of a turn of `ext2_block_alloc`, once `bit` is taken: the counts, and the block. -/
def bookBlock (c : Context) (group bit now : Nat) : Nat × Context :=
  (u32 (c.firstDataBlock + group * c.blocksPerGroup + bit),
    commitCounts (c.store group
      (Desc.freeBlocksCount.put (c.groups group) (Desc.freeBlocksCount.get (c.groups group) - 1))
      (Super.freeBlocksCount.put c.super (Super.freeBlocksCount.get c.super - 1))) group now)

/-- One turn of the loop of `ext2_block_alloc`. -/
def blockFrom (c : Context) (now start group : Nat) : Option (Nat × Context) :=
  if Desc.freeBlocksCount.get (c.groups group) = 0 then none
  else match bitmapTake c (Desc.blockBitmap.get (c.groups group)) 0 start (groupBlocks c group) with
    | .error _ => none
    | .ok (bit, c) => some (bookBlock c group bit now)

/-- A goal outside the file system is its first data block. -/
def clampGoal (c : Context) (goal : Nat) : Nat :=
  if goal < c.firstDataBlock ∨ goal ≥ c.blocksCount then c.firstDataBlock else goal

def startGroup (c : Context) (goal : Nat) : Nat :=
  (clampGoal c goal - c.firstDataBlock) / c.blocksPerGroup

def startBit (c : Context) (goal : Nat) : Nat :=
  (clampGoal c goal - c.firstDataBlock) % c.blocksPerGroup

/-- `ext2_block_alloc`. -/
def blockAlloc (c : Context) (goal now : Nat) : Nat × Context :=
  if Super.freeBlocksCount.get c.super = 0 then (0, c)
  else (firstGroup c (startGroup c goal) fun i group =>
    blockFrom c now (if i = 0 then startBit c goal else 0) group).getD (0, c)

/-- The end of `ext2_block_free`, once the bit is cleared. -/
def returnBlock (c : Context) (group now : Nat) : Context :=
  commitCounts (c.store group
    (Desc.freeBlocksCount.put (c.groups group) (Desc.freeBlocksCount.get (c.groups group) + 1))
    (Super.freeBlocksCount.put c.super (Super.freeBlocksCount.get c.super + 1))) group now

def putBlock (c : Context) (group bit now : Nat) : Context :=
  match bitmapPut c (Desc.blockBitmap.get (c.groups group)) bit with
  | .error _ => c
  | .ok c => returnBlock c group now

/-- `ext2_block_free`. -/
def blockFree (c : Context) (block now : Nat) : Context :=
  if block < c.firstDataBlock ∨ block ≥ c.blocksCount then c
  else putBlock c ((block - c.firstDataBlock) / c.blocksPerGroup)
    ((block - c.firstDataBlock) % c.blocksPerGroup) now

/-! ## Inodes -/

/-- The loop of `directory_group`, with `best` and `best_free`. -/
def directoryGroup (c : Context) : Nat :=
  ((List.range c.groupsCount).foldl (fun (best : Nat × Nat) i =>
    let freeBlocks := Desc.freeBlocksCount.get (c.groups i)
    if Desc.freeInodesCount.get (c.groups i) ≠ 0 ∧ freeBlocks > best.2 then (i, freeBlocks)
    else best) (0, 0)).1

/-- `ext2_inode_offset`. -/
def inodeOffset (c : Context) (ino : Nat) : Except Errno Nat :=
  if ino = 0 ∨ ino > c.inodesCount then .error .EINVAL
  else
    let group := (ino - 1) / c.inodesPerGroup
    let index := (ino - 1) % c.inodesPerGroup
    .ok (c.blockOffset (Desc.inodeTable.get (c.groups group)) + index * c.inodeSize)

/-- The loop of `ext2_inode_clear`. -/
def clearLoop (offset : Nat) : Nat → Nat → Context → Context × Except Errno Unit
  | 0, _, c => (c, .ok ())
  | fuel + 1, done, c =>
    if done < c.inodeSize then
      match c.devWrite (offset + done) GOOD_OLD_INODE_SIZE fun _ => 0 with
      | .ok c => clearLoop offset fuel (done + GOOD_OLD_INODE_SIZE) c
      | .error e => (c, .error e)
    else (c, .ok ())

/-- `ext2_inode_clear`. -/
def inodeClear (c : Context) (ino : Nat) : Context × Except Errno Unit :=
  match inodeOffset c ino with
  | .ok offset => clearLoop offset c.inodeSize 0 c
  | .error e => (c, .error e)

/-- The descriptor of a group with one inode fewer, a directory's or not. -/
def descTaken (desc : Bytes) (directory : Bool) : Bytes :=
  let desc := Desc.freeInodesCount.put desc (Desc.freeInodesCount.get desc - 1)
  if directory then Desc.usedDirsCount.put desc (Desc.usedDirsCount.get desc + 1) else desc

/-- The descriptor of a group with one inode more. -/
def descGiven (desc : Bytes) (directory : Bool) : Bytes :=
  let desc := Desc.freeInodesCount.put desc (Desc.freeInodesCount.get desc + 1)
  if directory then Desc.usedDirsCount.put desc (Desc.usedDirsCount.get desc + (2 ^ 16 - 1))
  else desc

/-- The end of a turn of `ext2_inode_alloc`, once `bit` is taken. -/
def bookInode (c : Context) (group bit now : Nat) (directory : Bool) : Nat × Context :=
  let ino := u32 (group * c.inodesPerGroup + bit + 1)
  let c := commitCounts (c.store group (descTaken (c.groups group) directory)
    (Super.freeInodesCount.put c.super (Super.freeInodesCount.get c.super - 1))) group now
  (ino, (inodeClear c ino).1)

/-- Inodes below `s_first_ino` are reserved, they all sit in group 0. -/
def firstBit (c : Context) (group : Nat) : Nat := if group = 0 then c.firstIno - 1 else 0

/-- One turn of the loop of `ext2_inode_alloc`. -/
def inodeFrom (c : Context) (now : Nat) (directory : Bool) (group : Nat) :
    Option (Nat × Context) :=
  if Desc.freeInodesCount.get (c.groups group) = 0 then none
  else match bitmapTake c (Desc.inodeBitmap.get (c.groups group)) (firstBit c group)
      (firstBit c group) c.inodesPerGroup with
    | .error _ => none
    | .ok (bit, c) => some (bookInode c group bit now directory)

/-- Where `ext2_inode_alloc` starts: directories are spread, files stay with their parent. -/
def inodeStart (c : Context) (parentIno : Nat) (directory : Bool) : Nat :=
  if directory then directoryGroup c
  else if parentIno ≠ 0 ∧ parentIno ≤ c.inodesCount then (parentIno - 1) / c.inodesPerGroup
  else 0

/-- `ext2_inode_alloc`. -/
def inodeAlloc (c : Context) (parentIno : Nat) (directory : Bool) (now : Nat) : Nat × Context :=
  if Super.freeInodesCount.get c.super = 0 then (0, c)
  else (firstGroup c (inodeStart c parentIno directory) fun _ group =>
    inodeFrom c now directory group).getD (0, c)

/-- The end of `ext2_inode_free`, once the bit is cleared. -/
def returnInode (c : Context) (group now : Nat) (directory : Bool) : Context :=
  commitCounts (c.store group (descGiven (c.groups group) directory)
    (Super.freeInodesCount.put c.super (Super.freeInodesCount.get c.super + 1))) group now

def putInode (c : Context) (group bit now : Nat) (directory : Bool) : Context :=
  match bitmapPut c (Desc.inodeBitmap.get (c.groups group)) bit with
  | .error _ => c
  | .ok c => returnInode c group now directory

/-- `ext2_inode_free`. -/
def inodeFree (c : Context) (ino : Nat) (directory : Bool) (now : Nat) : Context :=
  if ino < c.firstIno ∨ ino > c.inodesCount then c
  else putInode c ((ino - 1) / c.inodesPerGroup) ((ino - 1) % c.inodesPerGroup) now directory

end Vex.Fs.Ext2
