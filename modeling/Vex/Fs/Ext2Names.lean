import Vex.Fs.Ext2Alloc
import Vex.Fs.Name

/-! Names and link counts of an ext2 volume: the changes `ext2_vnode.c` makes to directories and
inodes under the lock of the file system, as `vnode.c` calls them.

The inode table is kept by columns. A directory is the list of its records in the order
`ext2_dirent_read` meets them; a record is found again by its name, which is what its offset is for.
What is decided elsewhere comes with the call: the inode that `ext2_inode_alloc` picks, the place
where `ext2_dirent_add` finds room, and what `is_ancestor` answers. Device requests succeed. -/

namespace Vex.Fs.Ext2

abbrev NAME_LEN : Nat := 255
abbrev LINK_MAX : Nat := 32000

/-- `ext2_dir_entry_t` of a record in use. -/
structure Record where
  name : Name
  ino : Nat
  deriving DecidableEq, Repr

/-- The inodes `1` to `size`; `kind` is `none` for a free one. -/
structure Tree where
  size : Nat
  readonly : Bool
  kind : Nat → Option NodeType
  links : Nat → Nat
  records : Nat → List Record
  /-- Whether something is mounted on a directory. -/
  mounted : Nat → Bool

namespace Tree

def setKind (t : Tree) (i : Nat) (k : Option NodeType) : Tree :=
  { t with kind := fun j => if j = i then k else t.kind j }

def setLinks (t : Tree) (i n : Nat) : Tree :=
  { t with links := fun j => if j = i then n else t.links j }

def setRecords (t : Tree) (d : Nat) (rs : List Record) : Tree :=
  { t with records := fun j => if j = d then rs else t.records j }

section
variable (t : Tree) (i j n : Nat) (k : Option NodeType) (rs : List Record)

@[simp] theorem setKind_size : (t.setKind i k).size = t.size := rfl
@[simp] theorem setKind_kind : (t.setKind i k).kind j = if j = i then k else t.kind j := rfl
@[simp] theorem setKind_links : (t.setKind i k).links = t.links := rfl
@[simp] theorem setKind_records : (t.setKind i k).records = t.records := rfl
@[simp] theorem setLinks_size : (t.setLinks i n).size = t.size := rfl
@[simp] theorem setLinks_kind : (t.setLinks i n).kind = t.kind := rfl
@[simp] theorem setLinks_links : (t.setLinks i n).links j = if j = i then n else t.links j := rfl
@[simp] theorem setLinks_records : (t.setLinks i n).records = t.records := rfl
@[simp] theorem setRecords_size : (t.setRecords i rs).size = t.size := rfl
@[simp] theorem setRecords_kind : (t.setRecords i rs).kind = t.kind := rfl
@[simp] theorem setRecords_links : (t.setRecords i rs).links = t.links := rfl
@[simp] theorem setRecords_records :
    (t.setRecords i rs).records j = if j = i then rs else t.records j := rfl

end

end Tree

/-! ## Records -/

/-- `ext2_dirent_find`. -/
def direntFind (t : Tree) (d : Nat) (name : Name) : Option Record :=
  (t.records d).find? fun r => r.name == name

/-- `ext2_dirent_add`, into the room that `slot` says there is. -/
def direntAdd (t : Tree) (d : Nat) (name : Name) (ino : Nat) : Option Nat → Except Errno Tree
  | none => .error .ENOSPC
  | some slot => .ok (t.setRecords d
      ((t.records d).take slot ++ ⟨name, ino⟩ :: (t.records d).drop slot))

/-- `ext2_dirent_remove` of the record with this name. -/
def direntRemove (t : Tree) (d : Nat) (name : Name) : Tree :=
  t.setRecords d ((t.records d).eraseP fun r => r.name == name)

def retarget (name : Name) (ino : Nat) : List Record → List Record
  | [] => []
  | r :: rs => if r.name == name then ⟨name, ino⟩ :: rs else r :: retarget name ino rs

/-- `ext2_dirent_retarget` of the record with this name. -/
def direntRetarget (t : Tree) (d : Nat) (name : Name) (ino : Nat) : Tree :=
  t.setRecords d (retarget name ino (t.records d))

/-- `ext2_dir_init`. -/
def dirInit (t : Tree) (d parent : Nat) : Tree := t.setRecords d [⟨DOT, d⟩, ⟨DOTDOT, parent⟩]

/-- `ext2_dir_check_empty`. -/
def dirCheckEmpty (t : Tree) (d : Nat) : Except Errno Unit :=
  if (t.records d).all fun r => isDots r.name then .ok () else .error .ENOTEMPTY

/-! ## Inodes -/

/-- `ext2_inode_alloc` answers with a free inode, which `ino` picks, or with none. -/
def inodeAnswer (t : Tree) (ino : Nat) : Option Nat :=
  if ino ≠ 0 ∧ ino ≤ t.size ∧ t.kind ino = none then some ino else none

def addLinksLocked (t : Tree) (i : Nat) (delta : Int) : Tree :=
  t.setLinks i (((t.links i : Int) + delta).toNat % 2 ^ 16)

/-! ## Calls under the file system lock -/

def createLocked (t : Tree) (node : Nat) (name : Name) (type : NodeType) (ino : Nat)
    (slot : Option Nat) : Except Errno Tree :=
  let directory := type = .dir
  if t.kind node ≠ some .dir then .error .ENOTDIR
  else if name.length > NAME_LEN then .error .ENAMETOOLONG
  else if directory ∧ t.links node ≥ LINK_MAX then .error .EMLINK
  else if (direntFind t node name).isSome then .error .EEXIST
  else match inodeAnswer t ino with
    | none => .error .ENOSPC
    | some ino =>
      let t := (t.setKind ino (some type)).setLinks ino (if directory then 2 else 1)
      let t := if directory then addLinksLocked (dirInit t ino node) node 1 else t
      -- A record that finds no room takes the new inode and the link of its ".." with it.
      direntAdd t node name ino slot

def linkLocked (t : Tree) (node : Nat) (name : Name) (target : Nat) (slot : Option Nat) :
    Except Errno Tree :=
  if name.length > NAME_LEN then .error .ENAMETOOLONG
  else if t.links target = 0 then .error .ENOENT
  else if t.links target ≥ LINK_MAX then .error .EMLINK
  else if (direntFind t node name).isSome then .error .EEXIST
  else (direntAdd t node name target slot).map fun t => addLinksLocked t target 1

def findEntryLocked (t : Tree) (d : Nat) (name : Name) (expected : Nat) : Except Errno Unit :=
  match direntFind t d name with
  | none => .error .ENOENT
  | some r => if r.ino ≠ expected then .error .ENOENT else .ok ()

def dropEntryTargetLocked (t : Tree) (target : Nat) : Tree :=
  if t.kind target = some .dir then t.setLinks target 0 else addLinksLocked t target (-1)

/-- A directory that is to go has to be empty. -/
def checkVictim (t : Tree) (victim : Nat) : Except Errno Unit :=
  if t.kind victim = some .dir then dirCheckEmpty t victim else .ok ()

/-- The counts when the entry of `target` in `node` is gone: the `".."` of a directory no longer
links to `node`. -/
def uncountTarget (t : Tree) (node target : Nat) : Tree :=
  dropEntryTargetLocked (if t.kind target = some .dir then addLinksLocked t node (-1) else t) target

def unlinkLocked (t : Tree) (node : Nat) (name : Name) (target : Nat) : Except Errno Tree := do
  findEntryLocked t node name target
  checkVictim t target
  pure (uncountTarget (direntRemove t node name) node target)

/-- The records of `rename_locked`: the new name leads to the source, the old one is gone. -/
def renameRecords (t : Tree) (olddir : Nat) (oldname : Name) (source newdir : Nat)
    (newname : Name) (victim : Option Nat) (slot : Option Nat) : Except Errno Tree :=
  match victim with
  | some _ => .ok (direntRemove (direntRetarget t newdir newname source) olddir oldname)
  | none => (direntAdd t newdir newname source slot).map fun t => direntRemove t olddir oldname

/-- Links to a directory come from the `".."` of its subdirectories. -/
def moveDotdot (t : Tree) (olddir source newdir : Nat) : Tree :=
  if t.kind source = some .dir ∧ olddir ≠ newdir then
    addLinksLocked (addLinksLocked (direntRetarget t source DOTDOT newdir) olddir (-1)) newdir 1
  else t

/-- The counts of `rename_locked`, and the `".."` of a directory that moves. -/
def renameLinks (t : Tree) (olddir source newdir : Nat) : Option Nat → Tree
  | none => moveDotdot t olddir source newdir
  | some v => uncountTarget (moveDotdot t olddir source newdir) newdir v

/-- What `rename_locked` expects under the new name. -/
def findVictim (t : Tree) (newdir : Nat) (newname : Name) : Option Nat → Except Errno Unit
  | none => if (direntFind t newdir newname).isSome then .error .EEXIST else .ok ()
  | some v => do
    findEntryLocked t newdir newname v
    checkVictim t v

/-- The checks of `rename_locked` before anything changes. -/
def renameCheck (t : Tree) (olddir : Nat) (oldname : Name) (source newdir : Nat)
    (newname : Name) (victim : Option Nat) : Except Errno Unit :=
  let victimDirectory := victim.any fun v => t.kind v = some .dir
  if newname.length > NAME_LEN then .error .ENAMETOOLONG
  else do
    findEntryLocked t olddir oldname source
    findVictim t newdir newname victim
    if t.kind source = some .dir ∧ olddir ≠ newdir ∧ !victimDirectory ∧
      t.links newdir ≥ LINK_MAX then .error .EMLINK else .ok ()

def renameLocked (t : Tree) (olddir : Nat) (oldname : Name) (source newdir : Nat)
    (newname : Name) (victim : Option Nat) (slot : Option Nat) : Except Errno Tree := do
  renameCheck t olddir oldname source newdir newname victim
  let t ← renameRecords t olddir oldname source newdir newname victim slot
  pure (renameLinks t olddir source newdir victim)

/-! ## Calls of `vnode.c` -/

def checkNewName (t : Tree) (name : Name) : Except Errno Unit :=
  if t.readonly then .error .EROFS
  else if isDots name then .error .EEXIST
  else .ok ()

/-- `lookup_crossed`, up to the vnode of the number it finds. -/
def lookupCrossed (t : Tree) (node : Nat) (name : Name) : Except Errno Nat :=
  match direntFind t node name with
  | none => .error .ENOENT
  | some r => .ok r.ino

def linkCrossed (t : Tree) (node : Nat) (name : Name) (target : Nat) (slot : Option Nat) :
    Except Errno Tree :=
  if t.kind target = some .dir then .error .EPERM
  else do
    checkNewName t name
    linkLocked t node name target slot

def symlinkCrossed (t : Tree) (node : Nat) (name : Name) (ino : Nat) (slot : Option Nat) :
    Except Errno Tree := do
  checkNewName t name
  createLocked t node name .symlink ino slot

def createCrossed (t : Tree) (node : Nat) (name : Name) (type : NodeType) (ino : Nat)
    (slot : Option Nat) : Except Errno Tree :=
  if t.readonly then .error .EROFS else createLocked t node name type ino slot

def unlinkCrossed (t : Tree) (node : Nat) (name : Name) (directory : Bool) :
    Except Errno Tree :=
  if t.readonly then .error .EROFS
  else if isDots name then .error .EINVAL
  else do
    let victim ← lookupCrossed t node name
    if directory ∧ t.kind victim ≠ some .dir then .error .ENOTDIR
    else if !directory ∧ t.kind victim = some .dir then .error .EISDIR
    else if t.mounted victim then .error .EBUSY
    else unlinkLocked t node name victim

/-- `check_rename`; `ancestor` says whether `is_ancestor` meets the source above `newdir`. -/
def checkRename (t : Tree) (source newdir : Nat) (victim : Option Nat) (ancestor : Bool) :
    Except Errno Unit :=
  if t.mounted source then .error .EBUSY
  else if t.kind source = some .dir ∧ (source = newdir ∨ ancestor) then .error .EINVAL
  else match victim with
    | none => .ok ()
    | some v =>
      if v = source then .ok ()
      else if t.mounted v then .error .EBUSY
      else if t.kind source = some .dir ∧ t.kind v ≠ some .dir then .error .ENOTDIR
      else if t.kind source ≠ some .dir ∧ t.kind v = some .dir then .error .EISDIR
      else .ok ()

def renameCrossed (t : Tree) (olddir : Nat) (oldname : Name) (newdir : Nat) (newname : Name)
    (ancestor : Bool) (slot : Option Nat) : Except Errno Tree :=
  if t.readonly then .error .EROFS
  else if isDots oldname ∨ isDots newname then .error .EINVAL
  else if oldname = [] ∨ newname = [] then .error .ENOENT
  else do
    let source ← lookupCrossed t olddir oldname
    let victim := (direntFind t newdir newname).map Record.ino
    checkRename t source newdir victim ancestor
    if victim = some source then .ok t
    else renameLocked t olddir oldname source newdir newname victim slot

/-- The last reference to a file without names goes: `release_locked` frees its inode. -/
def release (t : Tree) (i : Nat) : Except Errno Tree :=
  if t.links i ≠ 0 then .error .EBUSY else .ok ((t.setKind i none).setRecords i [])

inductive Change
  | create (node : Nat) (name : Name) (type : NodeType) (ino : Nat) (slot : Option Nat)
  | symlink (node : Nat) (name : Name) (ino : Nat) (slot : Option Nat)
  | link (node : Nat) (name : Name) (target : Nat) (slot : Option Nat)
  | unlink (node : Nat) (name : Name) (directory : Bool)
  | rename (olddir : Nat) (oldname : Name) (newdir : Nat) (newname : Name) (ancestor : Bool)
      (slot : Option Nat)
  | release (i : Nat)

def Tree.change (t : Tree) : Change → Except Errno Tree
  | .create node name type ino slot => createCrossed t node name type ino slot
  | .symlink node name ino slot => symlinkCrossed t node name ino slot
  | .link node name target slot => linkCrossed t node name target slot
  | .unlink node name directory => unlinkCrossed t node name directory
  | .rename olddir oldname newdir newname ancestor slot =>
    renameCrossed t olddir oldname newdir newname ancestor slot
  | .release i => Ext2.release t i

end Vex.Fs.Ext2
