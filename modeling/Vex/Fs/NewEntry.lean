import Vex.Fs.Path
import Vex.Libk.Ctype
import Mathlib.Data.List.DropRight

/-! New directory entries: where the calls that make one cut the last name off their path, what
the vnode layer asks of that name, and what each driver makes of it on the volume. -/

namespace Vex.Fs

abbrev NAME_SIZE : Nat := 256

abbrev S_ISVTX : Mode := 0x0200
abbrev CAP_FOWNER : Nat := 3

abbrev O_RDONLY : Mode := 0x0001
abbrev O_WRONLY : Mode := 0x0002
abbrev O_CREAT : Mode := 0x0004
abbrev O_TRUNC : Mode := 0x0008
abbrev O_EXCL : Mode := 0x0020

/-! ## The directory part of a path -/

/-- The text after the last separator, which may be empty. -/
def lastName (path : Name) : Name := path.rtakeWhile (· != SLASH)

/-- The text up to the last separator, that one included. -/
def dirPart (path : Name) : Name := path.rdropWhile (· != SLASH)

namespace Tree

variable (t : Tree) (credentials : Credentials)

/-- `page` says whether there is a page for the copy of the directory part. -/
def resolveDirPart (baseDir : Option Nat) (path : Name) (page : Bool) : Except Errno Nat :=
  if dirPart path = [] then t.pathResolveAt credentials baseDir DOT 0
  else if dirPart path = [SLASH] then t.pathResolveAt credentials none [SLASH] 0
  else if (dirPart path).dropLast.length > PATH_MAX then .error .ENAMETOOLONG
  else if page = false then .error .ENOMEM
  else t.pathResolveAt credentials baseDir (dirPart path).dropLast 0

def pathResolveParentAt (baseDir : Option Nat) (path : Name) (page : Bool) :
    Except Errno (Nat × Name) :=
  if path = [] then .error .ENOENT
  else do
    let parent ← t.resolveDirPart credentials baseDir path page
    if t.type parent ≠ .directory then .error .ENOTDIR else .ok (parent, lastName path)

def vnodeMayDelete (dir : Nat) (name : Name) : Except Errno Unit := do
  t.vnodeAccess credentials dir (W_OK ||| X_OK)
  let st ← t.vnodeStat dir
  if st.mode &&& S_ISVTX = 0 ∨ credentials.euid = st.uid ∨ credCapable credentials CAP_FOWNER then
    .ok ()
  else match t.vnodeLookup dir name with
    -- nothing there to protect
    | .error _ => .ok ()
    | .ok victim => do
      let st ← t.vnodeStat victim
      if credentials.euid ≠ st.uid then .error .EPERM else .ok ()

end Tree

namespace NewEntry

/-! ## Names on the volume -/

/-- The file system drivers. `devfs` has no operation that makes entries. -/
inductive Driver
  | ext2 | fat | echfs | devfs
  deriving DecidableEq, Repr

abbrev EXT2_NAME_LEN : Nat := 255
abbrev ECHFS_NAME_SIZE : Nat := 201

/-- The name as `fat_dirent_write` spreads it over long name entries of 13 characters. -/
def longName (name : Name) : List Nat :=
  let length := min name.length NAME_MAX
  (List.range (13 * ((length + 12) / 13))).map fun pos =>
    if pos < length then (name.getD pos 0).toNat else if pos = length then 0x0000 else 0xFFFF

/-- The name `fat_dirent_read` finds in them. -/
def readLongName (chars : List Nat) : Name :=
  ((chars.takeWhile fun ch => ch ≠ 0x0000 ∧ ch ≠ 0xFFFF).take NAME_MAX).map UInt8.ofNat

/-- `shortname_build` for an empty name, which leaves the tail alone: a tilde and `n`. -/
def shortname (n : Nat) : Name :=
  126 :: ((if n ≥ 100 then [UInt8.ofNat (48 + n / 100)] else []) ++
    (if n ≥ 10 then [UInt8.ofNat (48 + n / 10 % 10)] else []) ++ [UInt8.ofNat (48 + n % 10)])

namespace Driver

/-- The longest name an entry can have. -/
def nameLimit : Driver → Nat
  | ext2 => EXT2_NAME_LEN
  | fat => NAME_MAX
  | echfs => ECHFS_NAME_SIZE - 1
  | devfs => NAME_MAX

/-- The check on the length in the driver's own operations. -/
def tooLong : Driver → Name → Bool
  | ext2, name => name.length > EXT2_NAME_LEN
  | echfs, name => min name.length NAME_SIZE ≥ ECHFS_NAME_SIZE
  | fat, _ => false
  | devfs, _ => false

/-- The name an entry written under `name` is read under; `tail` is what `shortname_pick` found
free. -/
def written (tail : Nat) : Driver → Name → Name
  | ext2, name => name.take (name.length % 256)
  | fat, name => if name = [] then shortname tail else readLongName (longName name)
  | echfs, name => name.take ECHFS_NAME_SIZE
  | devfs, name => name

/-- The comparison of the driver's lookup, the entry's name first, with zeroes after the names. -/
def sameName : Driver → Name → Name → Bool
  | ext2, entry, name => entry = name
  | fat, entry, name =>
    Libk.strncasecmp NAME_MAX (Libk.cstr entry fun _ => 0) (Libk.cstr name fun _ => 0) = 0
  | echfs, entry, name => entry.take ECHFS_NAME_SIZE = name.take ECHFS_NAME_SIZE
  | devfs, entry, name => entry = name

def hasCreate : Driver → Bool
  | ext2 | fat | echfs => true
  | devfs => false

def hasRename : Driver → Bool
  | ext2 | fat | echfs => true
  | devfs => false

/-- `ops->link` and `ops->symlink`. -/
def hasLink : Driver → Bool
  | ext2 => true
  | fat | echfs | devfs => false

end Driver

/-- Whether a driver writes an entry anew when the name is taken over from a victim: ext2 turns
the victim's own record around. -/
def rewrites : Driver → Bool
  | .ext2 => false
  | .fat | .echfs | .devfs => true

/-- The namespace with the names each directory has on its volume, as its driver reads them. -/
structure Volumes extends Tree where
  driver : Nat → Driver
  readonly : Nat → Bool
  names : Nat → List Name
  names_le : ∀ d, ∀ n ∈ names d, n.length ≤ ((fs d).elim .devfs driver).nameLimit
  entry_found : ∀ d n u, entry d n = .ok u →
    ∃ m ∈ names d, ((fs d).elim .devfs driver).sameName m n

/-! ## The calls -/

/-- A string `user_copyin_str` has copied into a buffer of `PATH_SIZE`. -/
structure UserPath where
  text : Name
  noNul : 0 ∉ text
  fits : text.length ≤ PATH_MAX
  deriving DecidableEq, Repr

/-- What the layers below answer. -/
structure Answers where
  /-- There is a page for the directory part of the path, and for that of the old path. -/
  page : Bool
  oldPage : Bool
  /-- Why the driver stops before it writes the entry: no space, a failed transfer, a name that
  is not what it was when it was looked up. -/
  before : Option Errno
  /-- What fails once the entry is written. -/
  after : Option Errno
  /-- The number `shortname_pick` finds free. -/
  tail : Nat
  /-- What `is_ancestor` finds. -/
  ancestor : Bool
  /-- What `file_open_node` and the descriptor table say. -/
  opened : Except Errno Unit
  deriving Repr

/-- What a call returns, and the entry it wrote into a directory. -/
structure Outcome where
  result : Except Errno Unit
  gained : Option (Nat × Name)
  deriving DecidableEq, Repr

namespace Outcome

def fail (e : Errno) : Outcome := ⟨.error e, none⟩

def after {α : Type} (x : Except Errno α) (f : α → Outcome) : Outcome :=
  match x with
  | .error e => fail e
  | .ok x => f x

end Outcome

/-- `linkat` is given what its old path led to. -/
inductive Call
  | openat (dirfd : Except Errno Nat) (path : UserPath) (flags : Mode)
  | mkdirat (dirfd : Except Errno Nat) (path : UserPath)
  | symlinkat (target : UserPath) (dirfd : Except Errno Nat) (path : UserPath)
  | linkat (target : Except Errno Nat) (dirfd : Except Errno Nat) (path : UserPath)
  | renameat (olddirfd : Except Errno Nat) (oldpath : UserPath) (dirfd : Except Errno Nat)
      (path : UserPath)
  deriving Repr

/-- The path of the entry to be made, and where it starts. -/
def Call.path : Call → UserPath
  | openat _ path _ | mkdirat _ path | symlinkat _ _ path | linkat _ _ path
  | renameat _ _ _ path => path

def Call.dirfd : Call → Except Errno Nat
  | openat dirfd _ _ | mkdirat dirfd _ | symlinkat _ dirfd _ | linkat _ dirfd _
  | renameat _ _ dirfd _ => dirfd

/-- `dirfd` is the directory the descriptor or the working directory stands for. -/
def syscallDirfd (dirfd : Except Errno Nat) (path : Name) : Except Errno (Option Nat) :=
  if path.head? = some SLASH then .ok none else dirfd.map some

def accessFor (flags : Mode) : Mode :=
  (if flags &&& O_RDONLY ≠ 0 then R_OK else 0) |||
    (if flags &&& (O_WRONLY ||| O_TRUNC) ≠ 0 then W_OK else 0)

/-- `exclusive_create`. -/
def exclusive (flags : Mode) : Bool := flags &&& O_CREAT ≠ 0 ∧ flags &&& O_EXCL ≠ 0

namespace Volumes

variable (v : Volumes) (credentials : Credentials)

/-- The driver behind `node->ops`. -/
def ops (node : Nat) : Driver := (v.fs node).elim .devfs v.driver

def isReadonly (node : Nat) : Bool := (v.fs node).any v.readonly

/-- The directory has an entry under `name`. -/
def hasName (dir : Nat) (name : Name) : Bool := (v.names dir).any ((v.ops dir).sameName · name)

/-- `create_locked` of the drivers and `link_locked` of ext2. -/
def createLocked (dir : Nat) (name : Name) (a : Answers) : Outcome :=
  if (v.ops dir).tooLong name then .fail .ENAMETOOLONG
  else if v.hasName dir name then .fail .EEXIST
  else match a.before with
    | some e => .fail e
    | none => ⟨a.after.elim (.ok ()) .error, some (dir, (v.ops dir).written a.tail name)⟩

/-- `rename_locked` of the drivers. -/
def renameLocked (newdir : Nat) (newname : Name) (victim : Option Nat) (a : Answers) : Outcome :=
  if (v.ops newdir).tooLong newname then .fail .ENAMETOOLONG
  else if victim = none ∧ v.hasName newdir newname then .fail .EEXIST
  else if victim ≠ none ∧ ¬v.hasName newdir newname then .fail .ENOENT
  else match a.before with
    | some e => .fail e
    | none => ⟨a.after.elim (.ok ()) .error,
        if victim = none ∨ rewrites (v.ops newdir) then
          some (newdir, (v.ops newdir).written a.tail newname)
        else none⟩

def checkNewName (node : Nat) (name : Name) : Except Errno Unit :=
  if v.isReadonly node then .error .EROFS
  else if isDots name then .error .EEXIST
  else .ok ()

def linkCrossed (node : Nat) (name : Name) (target : Nat) (a : Answers) : Outcome :=
  if v.fs target ≠ v.fs node then .fail .EXDEV
  else if v.type target = .directory ∨ (v.ops node).hasLink = false then .fail .EPERM
  else .after (v.checkNewName node name) fun _ => v.createLocked node name a

def symlinkCrossed (node : Nat) (name : Name) (a : Answers) : Outcome :=
  if (v.ops node).hasLink = false then .fail .EPERM
  else .after (v.checkNewName node name) fun _ => v.createLocked node name a

def createCrossed (node : Nat) (name : Name) (a : Answers) : Outcome :=
  if (v.ops node).hasCreate = false then .fail .ENOSYS
  else if v.isReadonly node then .fail .EROFS
  else v.createLocked node name a

def checkRename (source : Nat) (victim : Option Nat) (a : Answers) : Except Errno Unit :=
  if v.mountedFs source ≠ none then .error .EBUSY
  else if v.type source = .directory ∧ a.ancestor then .error .EINVAL
  else match victim with
    | none => .ok ()
    | some victim =>
      if victim = source then .ok ()
      else if v.mountedFs victim ≠ none then .error .EBUSY
      else if v.type source = .directory ∧ v.type victim ≠ .directory then .error .ENOTDIR
      else if v.type source ≠ .directory ∧ v.type victim = .directory then .error .EISDIR
      else .ok ()

/-- The file that is in the way of a new name. -/
def lookupVictim (newdir : Nat) (newname : Name) : Except Errno (Option Nat) :=
  match v.entry newdir newname with
  | .ok victim => .ok (some victim)
  | .error e => if e = .ENOENT then .ok none else .error e

/-- What `rename_crossed` checks and looks up before it asks the driver: the source, and the
victim if the new name is taken. -/
def renameLookups (olddir : Nat) (oldname : Name) (newdir : Nat) (newname : Name) (a : Answers) :
    Except Errno (Nat × Option Nat) :=
  if v.fs olddir ≠ v.fs newdir then .error .EXDEV
  else if (v.ops olddir).hasRename = false then .error .ENOSYS
  else if v.isReadonly olddir then .error .EROFS
  else if isDots oldname ∨ isDots newname then .error .EINVAL
  else if oldname = [] ∨ newname = [] then .error .ENOENT
  else do
    let source ← v.entry olddir oldname
    let victim ← v.lookupVictim newdir newname
    v.checkRename source victim a
    return (source, victim)

def renameCrossed (olddir : Nat) (oldname : Name) (newdir : Nat) (newname : Name) (a : Answers) :
    Outcome :=
  .after (v.renameLookups olddir oldname newdir newname a) fun (source, victim) =>
    if victim = some source then ⟨.ok (), none⟩ else v.renameLocked newdir newname victim a

def vnodeCreate (node : Nat) (name : Name) (a : Answers) : Outcome :=
  .after (v.vfsCrossMount node) fun target => v.createCrossed target name a

def vnodeLink (node : Nat) (name : Name) (target : Nat) (a : Answers) : Outcome :=
  .after (v.vfsCrossMount node) fun crossed => v.linkCrossed crossed name target a

def vnodeSymlink (node : Nat) (name target : Name) (a : Answers) : Outcome :=
  if target = [] then .fail .ENOENT
  else .after (v.vfsCrossMount node) fun crossed => v.symlinkCrossed crossed name a

def vnodeRename (olddir : Nat) (oldname : Name) (newdir : Nat) (newname : Name) (a : Answers) :
    Outcome :=
  .after (v.vfsCrossMount olddir) fun sourceDir =>
    .after (v.vfsCrossMount newdir) fun targetDir =>
      v.renameCrossed sourceDir oldname targetDir newname a

/-- The parent and the name a system call's path stands for. -/
def parentAt (dirfd : Except Errno Nat) (path : Name) (page : Bool) :
    Except Errno (Nat × Name) := do
  let baseDir ← syscallDirfd dirfd path
  v.pathResolveParentAt credentials baseDir path page

def resolveNewParent (dirfd : Except Errno Nat) (path : Name) (page : Bool) :
    Except Errno (Nat × Name) := do
  let parent ← v.parentAt credentials dirfd path page
  v.vnodeAccess credentials parent.1 (W_OK ||| X_OK)
  return parent

def resolveRenameParent (dirfd : Except Errno Nat) (path : Name) (page : Bool) :
    Except Errno (Nat × Name) := do
  let parent ← v.parentAt credentials dirfd path page
  v.vnodeMayDelete credentials parent.1 parent.2
  return parent

/-- The end of `file_open` for a node that was there. -/
def openExisting (node : Nat) (flags : Mode) (a : Answers) : Except Errno Unit := do
  v.vnodeAccess credentials node (accessFor flags)
  a.opened

/-- The end of `file_open` once it has tried to create the file. -/
def openCreated (baseDir : Option Nat) (path : Name) (flags : Mode) (a : Answers)
    (created : Outcome) : Outcome :=
  match created.result with
  | .ok () => { created with result := a.opened }
  | .error e =>
    -- lost a race with another creator
    if e = .EEXIST ∧ exclusive flags = false then
      { created with result := do
          let node ← v.pathResolveAt credentials baseDir path 0
          v.openExisting credentials node flags a }
    else created

def fileOpen (baseDir : Option Nat) (path : Name) (flags : Mode) (a : Answers) : Outcome :=
  match v.pathResolveAt credentials baseDir path
      (if exclusive flags then PATH_NOFOLLOW else 0) with
  | .ok node =>
    if exclusive flags then .fail .EEXIST else ⟨v.openExisting credentials node flags a, none⟩
  | .error e =>
    if e = .ENOENT ∧ flags &&& O_CREAT ≠ 0 then
      .after (v.pathResolveParentAt credentials baseDir path a.page) fun parent =>
        v.openCreated credentials baseDir path flags a
          (.after (v.vnodeAccess credentials parent.1 (W_OK ||| X_OK)) fun _ =>
            v.vnodeCreate parent.1 parent.2 a)
    else .fail e

def run (a : Answers) : Call → Outcome
  | .openat dirfd path flags =>
    .after (syscallDirfd dirfd path.text) fun baseDir =>
      v.fileOpen credentials baseDir path.text flags a
  | .mkdirat dirfd path =>
    .after (v.resolveNewParent credentials dirfd path.text a.page) fun (parent, name) =>
      v.vnodeCreate parent name a
  | .symlinkat target dirfd path =>
    .after (v.resolveNewParent credentials dirfd path.text a.page) fun (parent, name) =>
      v.vnodeSymlink parent name target.text a
  | .linkat target dirfd path =>
    .after target fun target =>
      .after (v.resolveNewParent credentials dirfd path.text a.page) fun (parent, name) =>
        v.vnodeLink parent name target a
  | .renameat olddirfd oldpath dirfd path =>
    .after (v.resolveRenameParent credentials olddirfd oldpath.text a.oldPage)
      fun (olddir, oldname) =>
        .after (v.resolveRenameParent credentials dirfd path.text a.page) fun (newdir, newname) =>
          v.vnodeRename olddir oldname newdir newname a

end Volumes

/-! ## What is asked of the calls -/

/-- A path without the separators at its end. -/
def withoutTrailing (path : Name) : Name := path.rdropWhile (· == SLASH)

/-- An entry a call writes is named by the last component of its path, in the directory the rest
of the path leads to; a component too long for that directory's driver makes the call fail. -/
structure Named (v : Volumes) (credentials : Credentials) (c : Call) (a : Answers)
    (o : Outcome) : Prop where
  wellFormed : ∀ d n, o.gained = some (d, n) → n ≠ [] ∧ isDots n = false ∧ SLASH ∉ n
  exact : ∀ d n, o.gained = some (d, n) → ∃ dir,
    v.parentAt credentials c.dirfd (withoutTrailing c.path.text) a.page = .ok (dir, n) ∧
      v.vfsCrossMount dir = .ok d
  /-- With separators after it, the component is not one that was there. -/
  fresh : c.path.text.getLast? = some SLASH → ∀ d n, o.gained = some (d, n) →
    ∀ u, v.entry d n ≠ .ok u
  tooLong : ∀ dir name d, v.parentAt credentials c.dirfd c.path.text a.page = .ok (dir, name) →
    v.vfsCrossMount dir = .ok d → (v.ops d).nameLimit < name.length → ∃ e, o.result = .error e

/-- The call gets to write an entry into `d`: the directory part of its path leads there, the
caller may write, the name is not taken or too long for the driver, and nothing else fails. -/
structure Reaches (v : Volumes) (credentials : Credentials) (dirfd : Except Errno Nat)
    (path : UserPath) (a : Answers) (d : Nat) : Prop where
  parent : ∃ dir, v.resolveNewParent credentials dirfd path.text a.page =
    .ok (dir, lastName path.text) ∧ v.vfsCrossMount dir = .ok d
  create : (v.ops d).hasCreate
  writable : v.isReadonly d = false
  short : (v.ops d).tooLong (lastName path.text) = false
  free : v.hasName d (lastName path.text) = false
  room : a.before = none

/-- The rename finds its source, and is done or gets to write an entry into `d`. -/
def Renames (v : Volumes) (credentials : Credentials) (olddirfd : Except Errno Nat)
    (oldpath : UserPath) (dirfd : Except Errno Nat) (path : UserPath) (a : Answers) (d : Nat) :
    Prop :=
  ∃ olddir oldname newdir sourceDir source victim,
    v.resolveRenameParent credentials olddirfd oldpath.text a.oldPage = .ok (olddir, oldname) ∧
    v.resolveRenameParent credentials dirfd path.text a.page = .ok (newdir, lastName path.text) ∧
    v.vfsCrossMount olddir = .ok sourceDir ∧ v.vfsCrossMount newdir = .ok d ∧
    v.renameLookups sourceDir oldname d (lastName path.text) a = .ok (source, victim) ∧
    (victim = some source ∨ (v.hasName d (lastName path.text) ↔ victim ≠ none) ∧ a.before = none)

/-- A new directory, symbolic link or link is not made under an empty name, nor a directory under
`.` or `..` where these are not entries, nor anything on FAT under a name longer than an entry
can have. `open` looks its path up first, and finds all of these or fails. -/
def GivesName (v : Volumes) (credentials : Credentials) (a : Answers) : Call → Prop
  | .openat _ _ _ => True
  | .mkdirat dirfd path => ∀ d, Reaches v credentials dirfd path a d →
      lastName path.text ≠ [] ∧ isDots (lastName path.text) = false ∧
        (v.ops d = .fat → (lastName path.text).length ≤ NAME_MAX)
  | .symlinkat target dirfd path => ∀ d, Reaches v credentials dirfd path a d →
      target.text ≠ [] → (v.ops d).hasLink → lastName path.text ≠ []
  | .linkat target dirfd path => ∀ d node, Reaches v credentials dirfd path a d →
      target = .ok node → v.fs node = v.fs d → v.type node ≠ .directory → (v.ops d).hasLink →
        lastName path.text ≠ []
  | .renameat olddirfd oldpath dirfd path => ∀ d,
      Renames v credentials olddirfd oldpath dirfd path a d → v.ops d = .fat →
        (lastName path.text).length ≤ NAME_MAX

end NewEntry

end Vex.Fs
