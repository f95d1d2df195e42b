import Vex.Errno
import Vex.Fs.Name
import Vex.Lib.Bytes
import Vex.Lib.Cursor

/-! Reading directories: `iterate_locked` of ext2 and of FAT with the reading of their entries under
it, and `getdents` (`sys_path.c`). The position in a directory is a cookie of its file system: the
offset of a record in ext2, the index of an entry past the two dots in FAT. -/

namespace Vex.Fs.Dirents

open Lib

abbrev NAME_MAX : Nat := 255
abbrev DIR_DOTS_END : Nat := 2
abbrev DIRENT_ALIGNMENT : Nat := 8
abbrev GETDENTS_CHUNK_SIZE : Nat := 1024

/-- `dirent_t` as a file system fills it in. -/
structure Dirent where
  ino : Nat
  off : Nat
  nodetype : NodeType
  name : Name
  deriving DecidableEq, Repr

/-- An error of the block layer, which has no `ENOENT`. -/
abbrev Fault := { e : Errno // e ≠ Errno.ENOENT }

/-- What fails during a call: reading the head and the name of the ext2 record at an offset, reading
an inode, reading the FAT entry at an index, a read of the FAT table on the way to that entry, and
finding the node number of the parent. -/
structure Io where
  head : Nat → Option Fault
  name : Nat → Option Fault
  inode : Nat → Option Errno
  entry : Nat → Option Fault
  table : Nat → Bool
  parent : Option Errno

/-- Nothing fails. -/
def Io.none : Io where
  head := fun _ => .none
  name := fun _ => .none
  inode := fun _ => .none
  entry := fun _ => .none
  table := fun _ => false
  parent := .none

/-- What a buffer holds as a C string. -/
def cString (bytes : List UInt8) : Name := bytes.takeWhile (· ≠ 0)

/-- `-ENOENT` is how a reader of entries says that there are no more. -/
def upToEnd {α : Type} : Except Errno α → Except Errno (Option α)
  | .error .ENOENT => .ok .none
  | .error e => .error e
  | .ok a => .ok (some a)

/-! ## ext2 -/

structure Ext2Dir where
  bytes : Bytes
  size : Nat
  blockSize : Nat
  blockSize_pos : 0 < blockSize
  /-- `EXT2_FEATURE_INCOMPAT_FILETYPE`. -/
  hasFiletype : Bool
  /-- The type in the mode of an inode. -/
  inodeType : Nat → NodeType

/-- `ext2_dir_entry_t`, with the length as `rec_len_from_disk` gives it. -/
structure Ext2Head where
  ino : Nat
  recLen : Nat
  nameLen : Nat
  fileType : Nat
  deriving DecidableEq, Repr

structure Ext2Dirent where
  name : List UInt8
  ino : Nat
  fileType : Nat
  deriving DecidableEq, Repr

/-- `ext2_dirent_reclen`. -/
def direntReclen (nameLen : Nat) : Nat := (8 + nameLen + 3) / 4 * 4

namespace Ext2Dir

variable (d : Ext2Dir)

def readExact (fault : Option Fault) (count offset : Nat) : Except Errno Unit :=
  match fault with
  | some f => .error f.1
  | .none => if count = 0 ∨ offset + count ≤ d.size then .ok () else .error Errno.EIO

def recLenFromDisk (raw : Nat) : Nat :=
  if d.blockSize = 65536 ∧ (raw = 0 ∨ raw = 65535) then 65536 else raw

def headAt (offset : Nat) : Ext2Head where
  ino := le 4 d.bytes offset
  recLen := d.recLenFromDisk (le 2 d.bytes (offset + 4))
  nameLen := (d.bytes (offset + 6)).toNat
  fileType := (d.bytes (offset + 7)).toNat

/-- The checks of `read_record`. -/
def Valid (offset : Nat) (head : Ext2Head) : Prop :=
  direntReclen head.nameLen ≤ head.recLen ∧ head.recLen % 4 = 0 ∧
    head.recLen ≤ d.blockSize - offset % d.blockSize

instance (offset : Nat) (head : Ext2Head) : Decidable (d.Valid offset head) :=
  inferInstanceAs (Decidable (_ ∧ _))

def readRecord (io : Io) (offset : Nat) : Except Errno Ext2Head :=
  match d.readExact (io.head offset) 8 offset with
  | .error e => .error e
  | .ok () => if d.Valid offset (d.headAt offset) then .ok (d.headAt offset) else .error Errno.EIO

/-- `ext2_dirent_read`. A record has a length, so that there are no more of them than bytes. -/
def direntRead (io : Io) : (fuel offset : Nat) → Except Errno (Ext2Dirent × Nat)
  | 0, _ => .error .ENOENT
  | fuel + 1, offset =>
    if offset < d.size then
      match d.readRecord io offset with
      | .error e => .error e
      | .ok head =>
        if head.ino = 0 then direntRead io fuel (offset + head.recLen)
        else match d.readExact (io.name offset) head.nameLen (offset + 8) with
          | .error e => .error e
          | .ok () =>
            .ok ({ name := (List.range head.nameLen).map fun i => d.bytes (offset + 8 + i)
                   ino := head.ino
                   fileType := if d.hasFiletype then head.fileType else 0 },
              offset + head.recLen)
    else .error .ENOENT

/-- The loop of `ext2_dirent_align`. -/
def alignLoop (io : Io) (target : Nat) : (fuel record : Nat) → Except Errno Nat
  | 0, record => .ok record
  | fuel + 1, record =>
    if record < target ∧ record < d.size then
      match d.readRecord io record with
      | .error e => .error e
      | .ok head => alignLoop io target fuel (record + head.recLen)
    else .ok record

/-- `ext2_dirent_align`. -/
def direntAlign (io : Io) (offset : Nat) : Except Errno Nat :=
  d.alignLoop io offset (offset % d.blockSize) (offset - offset % d.blockSize)

def entryNodetype (io : Io) (entry : Ext2Dirent) : Except Errno NodeType :=
  match entry.fileType with
  | 1 => .ok .file
  | 2 => .ok .dir
  | 7 => .ok .symlink
  | 0 =>
    match io.inode entry.ino with
    | some e => .error e
    | .none => .ok (d.inodeType entry.ino)
  | _ => .ok .file

/-- A turn of the loop of `iterate_locked` up to the emit. -/
def next (io : Io) (offset : Nat) : Except Errno (Option (Dirent × Nat)) :=
  match upToEnd (d.direntRead io (d.size - offset) offset) with
  | .error e => .error e
  | .ok .none => .ok .none
  | .ok (some (entry, offset)) =>
    match d.entryNodetype io entry with
    | .error e => .error e
    | .ok nodetype =>
      .ok (some ({ ino := entry.ino, off := offset, nodetype, name := cString entry.name }, offset))

def iterateLocked {σ : Type} (io : Io) (emit : σ → Dirent → Bool × σ) (s : σ) (position : Nat) :
    Except Errno Unit × σ × Nat :=
  match d.direntAlign io position with
  | .error e => (.error e, s, position)
  | .ok offset => drain (d.next io) emit (d.size - offset) offset (s, position)

end Ext2Dir

/-! ## FAT -/

abbrev FAT_LFN_MAX_SEGMENTS : Nat := 20

abbrev FAT_ATTR_VOLUME_ID : UInt8 := 0x08
abbrev FAT_ATTR_DIRECTORY : UInt8 := 0x10
abbrev FAT_ATTR_LONG_NAME : UInt8 := 0x0F

abbrev FAT_NAME_END : UInt8 := 0x00
abbrev FAT_NAME_DELETED : UInt8 := 0xE5
abbrev FAT_NAME_ESCAPED_E5 : UInt8 := 0x05

/-- The 32 bytes of a `fat_entry_t`. -/
structure RawEntry where
  bytes : Bytes

namespace RawEntry

/-- The first byte, of `dir.name` or `ldir.order`. -/
def first (e : RawEntry) : UInt8 := e.bytes 0

def attr (e : RawEntry) : UInt8 := e.bytes 11

/-- `ldir->order` without the mark of the last segment. -/
def ord (e : RawEntry) : Nat := (e.first &&& 0xBF).toNat

/-- The characters of `name_1`, `name_2` and `name_3`. -/
def ldirChars (e : RawEntry) : List Nat :=
  ((List.range 5).map fun j => le 2 e.bytes (1 + 2 * j)) ++
    ((List.range 6).map fun j => le 2 e.bytes (14 + 2 * j)) ++
    (List.range 2).map fun j => le 2 e.bytes (28 + 2 * j)

/-- `dir.name`, with a leading 0xE5 put back. -/
def shortBytes (e : RawEntry) : List UInt8 :=
  (if e.first = FAT_NAME_ESCAPED_E5 then FAT_NAME_DELETED else e.first) ::
    (List.range 10).map fun i => e.bytes (i + 1)

end RawEntry

def ldirChecksum (name : List UInt8) : UInt8 :=
  name.foldl (fun (result c : UInt8) =>
    (if result &&& 1 ≠ 0 then (0x80 : UInt8) else 0) + (result >>> 1) + c) 0

def isspace (c : UInt8) : Bool := c = 32 || (9 ≤ c && c ≤ 13)

/-- The name in the segments of a long name, which stand in the directory last first. -/
def longName (ldirs : List RawEntry) : List UInt8 :=
  (((ldirs.reverse.flatMap RawEntry.ldirChars).takeWhile fun c => c ≠ 0x0000 ∧ c ≠ 0xFFFF).take
    NAME_MAX).map fun c => UInt8.ofNat c

def shortName (name : List UInt8) : List UInt8 :=
  let base := (name.take 8).takeWhile fun c => !isspace c
  let extension := (name.drop 8).takeWhile fun c => !isspace c
  if extension = [] then base else base ++ 46 :: extension

structure FatDirent where
  attr : UInt8
  fullName : List UInt8
  deriving DecidableEq, Repr

/-- The entry that `fat_dirent_read` makes of the segments before it. -/
def RawEntry.toDirent (raw : RawEntry) (ldirs : List RawEntry) : FatDirent where
  attr := raw.attr
  fullName :=
    if ldirs ≠ [] ∧ ldirs.all (fun l => l.bytes 13 = ldirChecksum raw.shortBytes) then
      longName ldirs
    else shortName raw.shortBytes

/-- The segments kept after another one, in `fat_dirent_read`. -/
def addSegment (ldirs : List RawEntry) (raw : RawEntry) : List RawEntry :=
  if raw.ord = 0 ∨ raw.ord > FAT_LFN_MAX_SEGMENTS ∨ raw.bytes 12 ≠ 0 then []
  else if raw.first &&& 0x40 ≠ 0 then [raw]
  else match ldirs.getLast? with
    | .none => []
    | some last =>
      if raw.ord + 1 ≠ last.ord then []
      else if ldirs.length < FAT_LFN_MAX_SEGMENTS then ldirs ++ [raw]
      else ldirs

structure FatDir where
  /-- The entries in the clusters of the directory. -/
  slots : List RawEntry
  /-- How many of them are found without the table, in the first cluster or in a root without
  clusters. -/
  firstEntries : Nat
  /-- `fat_nodenumber` of the entry at an index. It reads the table again and asserts that it could,
  so that no call in which it could not returns. -/
  nodenumber : Nat → Nat
  ino : Nat
  parent : Nat

namespace FatDir

variable (d : FatDir)

/-- To `entry_offset`, a cluster whose table entry cannot be read is the last one. -/
def readEntry (io : Io) (offset : Nat) : Except Errno RawEntry :=
  if d.firstEntries ≤ offset ∧ io.table offset then .error .ENOENT
  else match d.slots[offset]? with
    | .none => .error .ENOENT
    | some raw =>
      match io.entry offset with
      | some f => .error f.1
      | .none => .ok raw

/-- The loop of `fat_dirent_read`, with the segments of a long name seen so far. -/
def direntRead (io : Io) : (fuel offset : Nat) → List RawEntry → Except Errno (FatDirent × Nat)
  | 0, _, _ => .error .ENOENT
  | fuel + 1, offset, ldirs =>
    match d.readEntry io offset with
    | .error e => .error e
    | .ok raw =>
      if raw.first = FAT_NAME_END then .error .ENOENT
      else if raw.first = FAT_NAME_DELETED then direntRead io fuel (offset + 1) []
      else if raw.attr &&& FAT_ATTR_LONG_NAME = FAT_ATTR_LONG_NAME then
        direntRead io fuel (offset + 1) (addSegment ldirs raw)
      else if raw.attr &&& FAT_ATTR_VOLUME_ID ≠ 0 then direntRead io fuel (offset + 1) []
      else .ok (raw.toDirent ldirs, offset + 1)

/-- The turns of the loop of `iterate_locked` up to the next emit. -/
def entryFrom (io : Io) : (fuel offset : Nat) → Except Errno (Option (Dirent × Nat))
  | 0, _ => .ok .none
  | fuel + 1, offset =>
    match upToEnd (d.direntRead io (d.slots.length - offset) offset []) with
    | .error e => .error e
    | .ok .none => .ok .none
    | .ok (some (entry, offset)) =>
      if entry.attr &&& FAT_ATTR_VOLUME_ID ≠ 0 ∨ isDots (cString entry.fullName) then
        entryFrom io fuel offset
      else
        .ok (some
          ({ ino := d.nodenumber (offset - 1)
             off := offset + DIR_DOTS_END
             nodetype := if entry.attr &&& FAT_ATTR_DIRECTORY ≠ 0 then .dir else .file
             name := cString entry.fullName }, offset + DIR_DOTS_END))

/-- The same by position. -/
def next (io : Io) (position : Nat) : Except Errno (Option (Dirent × Nat)) :=
  d.entryFrom io (d.slots.length - (position - DIR_DOTS_END)) (position - DIR_DOTS_END)

end FatDir

def dirEmit {σ : Type} (emit : σ → Dirent → Bool × σ) (s : σ) (position : Nat) (entry : Dirent)
    (nextPosition : Nat) : Bool × σ × Nat :=
  match emit s { entry with off := nextPosition } with
  | (false, s) => (false, s, position)
  | (true, s) => (true, s, nextPosition)

def dotEntry (ino : Nat) (name : Name) (off : Nat) : Dirent := { ino, off, nodetype := .dir, name }

def dirEmitDots {σ : Type} (emit : σ → Dirent → Bool × σ) (self parent : Nat) (s : σ)
    (position : Nat) : Bool × σ × Nat :=
  match if position = 0 then dirEmit emit s position (dotEntry self DOT 0) 1
    else (true, s, position) with
  | (false, s, position) => (false, s, position)
  | (true, s, position) =>
    if position = 1 then dirEmit emit s position (dotEntry parent DOTDOT 0) DIR_DOTS_END
    else (true, s, position)

/-- `iterate_locked` of FAT. -/
def FatDir.iterateLocked {σ : Type} (d : FatDir) (io : Io) (emit : σ → Dirent → Bool × σ) (s : σ)
    (position : Nat) : Except Errno Unit × σ × Nat :=
  if position < DIR_DOTS_END then
    match io.parent with
    | some e => (.error e, s, position)
    | .none =>
      match dirEmitDots emit d.ino d.parent s position with
      | (false, s, position) => (.ok (), s, position)
      | (true, s, position) => entries s position
  else entries s position
where
  entries (s : σ) (position : Nat) : Except Errno Unit × σ × Nat :=
    drain (d.next io) emit (d.slots.length - (position - DIR_DOTS_END)) position (s, position)

/-! ## `getdents` -/

inductive Dir
  | ext2 (d : Ext2Dir)
  | fat (d : FatDir)

/-- `vnode_iterate`. -/
def Dir.iterate {σ : Type} (d : Dir) (io : Io) (emit : σ → Dirent → Bool × σ) (s : σ)
    (position : Nat) : Except Errno Unit × σ × Nat :=
  match d with
  | ext2 d => d.iterateLocked io emit s position
  | fat d => d.iterateLocked io emit s position

/-- A record in the buffer. -/
structure Record where
  entry : Dirent
  reclen : Nat
  deriving DecidableEq, Repr

/-- `getdents_state_t`, with the buffer as the records in it. -/
structure GetdentsState where
  size : Nat
  filled : Nat
  full : Bool
  records : List Record
  deriving DecidableEq, Repr

/-- `dirent_record_size`; `d_name` comes after 20 bytes. -/
def direntRecordSize (entry : Dirent) : Nat :=
  (20 + entry.name.length + 1 + DIRENT_ALIGNMENT - 1) / DIRENT_ALIGNMENT * DIRENT_ALIGNMENT

def getdentsEmit (st : GetdentsState) (entry : Dirent) : Bool × GetdentsState :=
  if direntRecordSize entry > st.size - st.filled then (false, { st with full := true })
  else
    (true, { st with
      filled := st.filled + direntRecordSize entry
      records := st.records ++ [{ entry, reclen := direntRecordSize entry }] })

/-- A call of `getdents` with the size of its buffer. `copyout` is the error of copying so many
bytes to it. -/
structure Call where
  size : Nat
  io : Io
  copyout : Nat → Option Errno

/-- `getdents_file`: the result, with the records it has copied, and the position after it. -/
def getdentsFile (d : Dir) (c : Call) (position : Nat) : Except Errno (Nat × List Record) × Nat :=
  match d.iterate c.io getdentsEmit
    { size := min c.size GETDENTS_CHUNK_SIZE, filled := 0, full := false, records := [] }
    position with
  | (.error e, _) => (.error e, position)
  | (.ok (), st, next) =>
    if st.filled = 0 ∧ st.full then (.error .EINVAL, position)
    else match c.copyout st.filled with
      | some e => (.error e, position)
      | .none => (.ok (st.filled, st.records), next)

/-- Calls one after the other: the records of those that succeed, and the position after them. -/
def getdentsAll (d : Dir) : List Call → Nat → List Record × Nat
  | [], position => ([], position)
  | c :: calls, position =>
    match getdentsFile d c position with
    | (.error _, position) => getdentsAll d calls position
    | (.ok (_, records), position) =>
      (records ++ (getdentsAll d calls position).1, (getdentsAll d calls position).2)

end Vex.Fs.Dirents
