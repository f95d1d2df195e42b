import Mathlib.Data.Fintype.Basic
import Vex.Fs.Name
import Vex.Lib.Run

/-! `vnode_lookup`, `vnode_create`, `vnode_unlink` and `vnode_rename` on one file system, on any
number of threads.

Every operation of the driver and every function of `vcache.c` is one step, since it runs under a
lock; the steps of different calls interleave freely, but for `rename_mutex`. Any call may fail
between two steps.

Files have identities, which are never used twice; the root is file 0. In a directory that has
lost its name the drivers differ, which is left out: the results are for runs in which none is
asked to work in one. A file's number may be used twice:
ext2 gives it away again once the last reference to the removed file is gone, FAT and echfs, where
the number is the place of the entry, as soon as the entry is removed. The model lets every driver
do so at once. -/

namespace Vex.Fs.Names

open Vex.Lib Function

inductive Driver
  | ext2 | fat | echfs
  deriving DecidableEq, Repr

/-! ## The volume -/

/-- The name `name` in the directory `dir`, with the number it leads to. -/
structure DirEntry where
  dir : Nat
  name : Name
  ino : Nat
  deriving DecidableEq, Repr

structure Disk where
  driver : Driver
  entries : List DirEntry
  /-- The file that each number was last given to. -/
  owner : Nat → Nat
  isDir : Nat → Bool
  /-- Files made so far. -/
  files : Nat

namespace Disk

/-- `ops->lookup`. -/
def find (d : Disk) (dir : Nat) (name : Name) : Option Nat :=
  (d.entries.find? fun e => e.dir == dir && e.name == name).map (·.ino)

def inUse (d : Disk) (ino : Nat) : Bool := d.entries.any (·.ino == ino)

def isEmpty (d : Disk) (dir : Nat) : Bool := !d.entries.any (·.dir == dir)

/-- `ops->create`: a new file under the number `ino`. -/
def create (d : Disk) (dir : Nat) (name : Name) (ino : Nat) (isDir : Bool) : Disk :=
  { d with
    entries := ⟨dir, name, ino⟩ :: d.entries
    owner := update d.owner ino d.files
    isDir := update d.isDir d.files isDir
    files := d.files + 1 }

def remove (d : Disk) (dir : Nat) (name : Name) : Disk :=
  { d with entries := d.entries.filter fun e => !(e.dir == dir && e.name == name) }

/-- `ops->rename` of the file with the number `ino`, which is `ino'` afterwards. -/
def rename (d : Disk) (olddir : Nat) (oldname : Name) (newdir : Nat) (newname : Name)
    (ino ino' : Nat) : Disk :=
  { d with
    entries := ⟨newdir, newname, ino'⟩ :: ((d.remove olddir oldname).remove newdir newname).entries
    owner := update d.owner ino' (d.owner ino) }

/-- Only on FAT does a file get a new number with its new entry. -/
def MayRenumber (d : Disk) (ino ino' : Nat) : Prop :=
  if d.driver = .fat then d.inUse ino' = false else ino' = ino

instance (d : Disk) (ino ino' : Nat) : Decidable (d.MayRenumber ino ino') := by
  unfold MayRenumber
  infer_instance

end Disk

/-! ## Calls in progress -/

structure Vnode where
  /-- The file that `fill_node` or `ops->create` set it up for. -/
  file : Nat
  ino : Nat
  /-- Whether its type is `VNODE_DIRECTORY`. -/
  dir : Bool
  parent : Option Nat
  deriving DecidableEq, Repr

/-- What `lookup_crossed` is called for. -/
inductive Task
  | lookup
  | unlink (directory : Bool)
  /-- For the source of a rename to `newname` in `newdir`. -/
  | source (newdir : Nat) (newname : Name)
  /-- For the victim of a rename of `source`. -/
  | victim (olddir : Nat) (oldname : Name) (source : Nat)
  deriving DecidableEq, Repr

structure Walk where
  task : Task
  dir : Nat
  name : Name
  deriving DecidableEq, Repr

/-- The variables of `rename_crossed`. -/
structure Rename where
  olddir : Nat
  oldname : Name
  source : Nat
  newdir : Nat
  newname : Name
  victim : Option Nat
  deriving DecidableEq, Repr

/-- Where the call of a thread is. -/
inductive Frame
  | idle
  /-- `ops->lookup` is next. -/
  | asked (w : Walk)
  /-- `vcache_get` is next. -/
  | read (w : Walk) (ino : Nat)
  /-- `fill_node` is next. -/
  | missed (w : Walk) (ino : Nat)
  /-- `vcache_get_or_insert` is next. No other thread has the vnode yet. -/
  | filled (w : Walk) (x : Vnode)
  /-- `lookup_crossed` is over. -/
  | found (w : Walk) (v : Nat)
  /-- In `cache_created`, with `vcache_get_or_insert` next. -/
  | created (x : Vnode)
  /-- In `is_ancestor`. -/
  | climbing (r : Rename) (it : Option Nat)
  /-- `ops->rename` is next. -/
  | ready (r : Rename)
  /-- `set_parent` is next. -/
  | moved (source newdir : Nat)
  deriving DecidableEq, Repr

def Task.nodes : Task → List Nat
  | .lookup | .unlink _ => []
  | .source newdir _ => [newdir]
  | .victim olddir _ src => [olddir, src]

def Walk.nodes (w : Walk) : List Nat := w.dir :: w.task.nodes

def Rename.nodes (r : Rename) : List Nat := r.olddir :: r.source :: r.newdir :: r.victim.toList

/-- The vnodes a call has references to. -/
def Frame.nodes : Frame → List Nat
  | .idle => []
  | .asked w | .read w _ | .missed w _ => w.nodes
  | .filled w x => x.parent.toList ++ w.nodes
  | .found w v => v :: w.nodes
  | .created x => x.parent.toList
  | .climbing r it => it.toList ++ r.nodes
  | .ready r => r.nodes
  | .moved source newdir => [source, newdir]

def Frame.walk : Frame → Option Walk
  | .asked w | .read w _ | .missed w _ | .filled w _ | .found w _ => some w
  | _ => none

structure World (n : Nat) where
  disk : Disk
  node : Nat → Vnode
  /-- Vnodes made so far; 0 is the root, which is not in the cache. -/
  made : Nat
  cached : List Nat
  /-- The references that the callers have. -/
  held : List Nat
  frame : Fin n → Frame
  /-- Who has `rename_mutex`. -/
  renamer : Option (Fin n)
  /-- The files that the entry looked up by a thread has named since its lookup began. -/
  seen : Fin n → List Nat

inductive Act (n : Nat)
  /-- `vfs_get_root`. -/
  | root
  | decref (v : Nat)
  /-- A vnode without references is evicted, or destroyed if it is not cached. -/
  | free (v : Nat)
  | lookup (t : Fin n) (dir : Nat) (name : Name)
  | unlink (t : Fin n) (dir : Nat) (name : Name) (directory : Bool)
  | rename (t : Fin n) (olddir : Nat) (oldname : Name) (newdir : Nat) (newname : Name)
  /-- `ops->create`, with the number the driver takes. -/
  | create (t : Fin n) (dir : Nat) (name : Name) (ino : Nat) (directory : Bool)
  /-- `ops->lookup`; `dots` is what the driver has for `.` and `..`. -/
  | read (t : Fin n) (dots : Option Nat)
  /-- `vcache_get`. -/
  | get (t : Fin n)
  /-- `fill_node`. -/
  | fill (t : Fin n)
  /-- `vcache_get_or_insert`. -/
  | insert (t : Fin n)
  /-- What the caller of `lookup_crossed` does next; `ops->unlink` for `unlink_crossed`. -/
  | finish (t : Fin n)
  /-- The next turn of the loop of `is_ancestor`. -/
  | climb (t : Fin n)
  /-- `ops->rename`, with the number of the file afterwards. -/
  | move (t : Fin n) (ino : Nat)
  | setParent (t : Fin n)
  /-- The call fails. -/
  | abort (t : Fin n)
  deriving DecidableEq, Repr

namespace World

variable {n : Nat}

def file (s : World n) (v : Nat) : Nat := (s.node v).file

def ino (s : World n) (v : Nat) : Nat := (s.node v).ino

def Referenced (s : World n) (v : Nat) : Prop :=
  v ∈ s.held ∨ (∃ t, v ∈ (s.frame t).nodes) ∨ ∃ w < s.made, (s.node w).parent = some v

instance (s : World n) (v : Nat) : Decidable (s.Referenced v) :=
  inferInstanceAs (Decidable (_ ∨ _ ∨ _))

def cacheFind (s : World n) (ino : Nat) : Option Nat := s.cached.find? fun v => s.ino v == ino

def uncache (s : World n) (v : Nat) : World n := { s with cached := s.cached.filter (· != v) }

def setNode (s : World n) (v : Nat) (x : Vnode) : World n :=
  { s with node := update s.node v x }

def setFrame (s : World n) (t : Fin n) (fr : Frame) : World n :=
  { s with frame := update s.frame t fr }

/-- The call is over; a rename releases `rename_mutex`. -/
def leave (s : World n) (t : Fin n) : World n :=
  { s.setFrame t .idle with renamer := if s.renamer = some t then none else s.renamer }

def ask (s : World n) (t : Fin n) (w : Walk) : World n :=
  { s.setFrame t (.asked w) with seen := update s.seen t [] }

/-- The new vnode gets the number `s.made`. -/
def publish (s : World n) (x : Vnode) : World n :=
  { s.setNode s.made x with made := s.made + 1, cached := s.made :: s.cached }

/-! ## The steps -/

/-- The rest of `check_rename`. A rename of a file to itself does nothing. -/
def compare (s : World n) (t : Fin n) (r : Rename) : World n :=
  if r.victim.all fun v => v != r.source && (s.node v).dir == (s.node r.source).dir then
    s.setFrame t (.ready r)
  else s.leave t

/-- `check_rename`. -/
def check (s : World n) (t : Fin n) (r : Rename) : World n :=
  if (s.node r.source).dir then s.setFrame t (.climbing r (some r.newdir)) else s.compare t r

/-- `lookup_crossed` returns `-ENOENT`. -/
def missing (s : World n) (t : Fin n) (w : Walk) : World n :=
  match w.task with
  | .victim olddir oldname source => s.check t ⟨olddir, oldname, source, w.dir, w.name, none⟩
  | _ => s.leave t

def readStep (s : World n) (t : Fin n) (w : Walk) (dots : Option Nat) : World n :=
  match if isDots w.name then dots else s.disk.find (s.file w.dir) w.name with
  | some i => s.setFrame t (.read w i)
  | none => s.missing t w

def getStep (s : World n) (t : Fin n) (w : Walk) (i : Nat) : World n :=
  match s.cacheFind i with
  | some v => s.setFrame t (.found w v)
  | none => s.setFrame t (.missed w i)

/-- The vnode of the file with the number `i`, found in the directory `dir`. -/
def fillNode (s : World n) (dir i : Nat) : Vnode :=
  let f := s.disk.owner i
  ⟨f, i, s.disk.isDir f, if s.disk.isDir f then some dir else none⟩

/-- FAT's `fill_node` does not see whether the entry is free. -/
def fillStep (s : World n) (t : Fin n) (w : Walk) (i : Nat) : World n :=
  if s.disk.inUse i ∨ s.disk.driver = .fat then s.setFrame t (.filled w (s.fillNode w.dir i))
  else s.missing t w

def insertFilled (s : World n) (t : Fin n) (w : Walk) (x : Vnode) : World n :=
  match s.cacheFind x.ino with
  | some v => s.setFrame t (.found w v)
  | none => (s.publish x).setFrame t (.found w s.made)

def insertCreated (s : World n) (t : Fin n) (x : Vnode) : World n :=
  match s.cacheFind x.ino with
  | some v => { s.leave t with held := v :: s.held }
  | none => { (s.publish x).leave t with held := s.made :: s.held }

def createStep (s : World n) (t : Fin n) (dir : Nat) (name : Name) (i : Nat) (directory : Bool) :
    World n :=
  { s.setFrame t (.created ⟨s.disk.files, i, directory, if directory then some dir else none⟩) with
    disk := s.disk.create (s.file dir) name i directory }

/-- What `unlink_crossed` and the driver check. -/
def MayUnlink (s : World n) (w : Walk) (directory : Bool) (v : Nat) : Prop :=
  (s.node v).dir = directory ∧ s.disk.find (s.file w.dir) w.name = some (s.ino v) ∧
    (directory → s.disk.isEmpty (s.file v))

instance (s : World n) (w : Walk) (directory : Bool) (v : Nat) :
    Decidable (s.MayUnlink w directory v) := inferInstanceAs (Decidable (_ ∧ _ ∧ (_ → _)))

/-- A vnode whose number no entry has any more leaves the cache. -/
def forget (s : World n) (v : Nat) : World n :=
  if s.disk.inUse (s.ino v) then s else s.uncache v

def unlinkStep (s : World n) (t : Fin n) (w : Walk) (v : Nat) : World n :=
  ({ s with disk := s.disk.remove (s.file w.dir) w.name }.forget v).leave t

def finishStep (s : World n) (t : Fin n) (w : Walk) (v : Nat) : Option (World n) :=
  match w.task with
  | .lookup => some { s.leave t with held := v :: s.held }
  | .unlink directory => if s.MayUnlink w directory v then some (s.unlinkStep t w v) else none
  | .source newdir newname => some (s.ask t ⟨.victim w.dir w.name v, newdir, newname⟩)
  | .victim olddir oldname source =>
    some (s.check t ⟨olddir, oldname, source, w.dir, w.name, some v⟩)

def climbStep (s : World n) (t : Fin n) (r : Rename) : Option Nat → World n
  | none => s.compare t r
  | some u => if u = r.source then s.leave t else s.setFrame t (.climbing r (s.node u).parent)

/-- What the driver checks before it moves the entry. -/
def MayMove (s : World n) (r : Rename) (i : Nat) : Prop :=
  s.disk.find (s.file r.olddir) r.oldname = some (s.ino r.source) ∧
    s.disk.find (s.file r.newdir) r.newname = r.victim.map s.ino ∧
    (r.victim.all fun v => !(s.node v).dir || s.disk.isEmpty (s.file v)) ∧
    s.disk.MayRenumber (s.ino r.source) i

instance (s : World n) (r : Rename) (i : Nat) : Decidable (s.MayMove r i) :=
  inferInstanceAs (Decidable (_ ∧ _ ∧ _ ∧ _))

def renamed (s : World n) (r : Rename) (i : Nat) : Disk :=
  s.disk.rename (s.file r.olddir) r.oldname (s.file r.newdir) r.newname (s.ino r.source) i

def forgetVictim (s : World n) : Option Nat → World n
  | none => s
  | some v => s.forget v

/-- `ops->rename` with `vcache_remove` and `vcache_rekey`. -/
def moveEntry (s : World n) (r : Rename) (i : Nat) : World n :=
  ({ s with disk := s.renamed r i }.forgetVictim r.victim).setNode r.source
    { s.node r.source with ino := i }

def moveStep (s : World n) (t : Fin n) (r : Rename) (i : Nat) : World n :=
  if (s.node r.source).dir ∧ r.olddir ≠ r.newdir then
    (s.moveEntry r i).setFrame t (.moved r.source r.newdir)
  else (s.moveEntry r i).leave t

def setParentStep (s : World n) (t : Fin n) (source newdir : Nat) : World n :=
  (s.setNode source { s.node source with parent := some newdir }).leave t

def freeStep (s : World n) (v : Nat) : World n :=
  (s.uncache v).setNode v { s.node v with parent := none }

def next (s : World n) : Act n → Option (World n)
  | .root => some { s with held := 0 :: s.held }
  | .decref v => if v ∈ s.held then some { s with held := s.held.erase v } else none
  | .free v => if v ≠ 0 ∧ ¬s.Referenced v then some (s.freeStep v) else none
  | .lookup t dir name =>
    if s.frame t = .idle ∧ dir ∈ s.held then some (s.ask t ⟨.lookup, dir, name⟩) else none
  | .unlink t dir name directory =>
    if s.frame t = .idle ∧ dir ∈ s.held ∧ ¬isDots name then
      some (s.ask t ⟨.unlink directory, dir, name⟩)
    else none
  | .rename t olddir oldname newdir newname =>
    if s.frame t = .idle ∧ olddir ∈ s.held ∧ newdir ∈ s.held ∧ s.renamer = none ∧
        ¬isDots oldname ∧ ¬isDots newname ∧ oldname ≠ [] ∧ newname ≠ [] then
      some { s.ask t ⟨.source newdir newname, olddir, oldname⟩ with renamer := some t }
    else none
  | .create t dir name i directory =>
    if s.frame t = .idle ∧ dir ∈ s.held ∧ (s.node dir).dir ∧
        s.disk.find (s.file dir) name = none ∧ ¬s.disk.inUse i then
      some (s.createStep t dir name i directory)
    else none
  | .read t dots => match s.frame t with
    | .asked w => some (s.readStep t w dots)
    | _ => none
  | .get t => match s.frame t with
    | .read w i => some (s.getStep t w i)
    | _ => none
  | .fill t => match s.frame t with
    | .missed w i => some (s.fillStep t w i)
    | _ => none
  | .insert t => match s.frame t with
    | .filled w x => some (s.insertFilled t w x)
    | .created x => some (s.insertCreated t x)
    | _ => none
  | .finish t => match s.frame t with
    | .found w v => s.finishStep t w v
    | _ => none
  | .climb t => match s.frame t with
    | .climbing r it => some (s.climbStep t r it)
    | _ => none
  | .move t i => match s.frame t with
    | .ready r => if s.MayMove r i then some (s.moveStep t r i) else none
    | _ => none
  | .setParent t => match s.frame t with
    | .moved source newdir => some (s.setParentStep t source newdir)
    | _ => none
  | .abort t => match s.frame t with
    | .idle | .moved .. => none
    | _ => some (s.leave t)

/-- What each action can do, with what it finds. -/
inductive Next (s : World n) : Act n → World n → Prop
  | root : Next s .root { s with held := 0 :: s.held }
  | decref (hv : v ∈ s.held) : Next s (.decref v) { s with held := s.held.erase v }
  | free (hv : v ≠ 0) (hr : ¬s.Referenced v) : Next s (.free v) (s.freeStep v)
  | lookup (hfr : s.frame t = .idle) (hd : dir ∈ s.held) :
    Next s (.lookup t dir name) (s.ask t ⟨.lookup, dir, name⟩)
  | unlink (hfr : s.frame t = .idle) (hd : dir ∈ s.held) :
    Next s (.unlink t dir name directory) (s.ask t ⟨.unlink directory, dir, name⟩)
  | rename (hfr : s.frame t = .idle) (ho : olddir ∈ s.held) (hd : newdir ∈ s.held)
      (hfree : s.renamer = none) : Next s (.rename t olddir oldname newdir newname)
        { s.ask t ⟨.source newdir newname, olddir, oldname⟩ with renamer := some t }
  | create (hfr : s.frame t = .idle) (hd : dir ∈ s.held) (hdir : (s.node dir).dir)
      (hf : s.disk.find (s.file dir) name = none) (hi : ¬s.disk.inUse i) :
    Next s (.create t dir name i directory) (s.createStep t dir name i directory)
  | read (hfr : s.frame t = .asked w) : Next s (.read t dots) (s.readStep t w dots)
  | get (hfr : s.frame t = .read w i) : Next s (.get t) (s.getStep t w i)
  | fill (hfr : s.frame t = .missed w i) : Next s (.fill t) (s.fillStep t w i)
  | insertFilled (hfr : s.frame t = .filled w x) : Next s (.insert t) (s.insertFilled t w x)
  | insertCreated (hfr : s.frame t = .created x) : Next s (.insert t) (s.insertCreated t x)
  | finish (hfr : s.frame t = .found w v) (hs : s.finishStep t w v = some s') :
    Next s (.finish t) s'
  | climb (hfr : s.frame t = .climbing r it) : Next s (.climb t) (s.climbStep t r it)
  | move (hfr : s.frame t = .ready r) (hm : s.MayMove r i) : Next s (.move t i) (s.moveStep t r i)
  | setParent (hfr : s.frame t = .moved source newdir) :
    Next s (.setParent t) (s.setParentStep t source newdir)
  | abort (hfr : ∀ source newdir, s.frame t ≠ .moved source newdir) : Next s (.abort t) (s.leave t)

theorem next_cases {s : World n} (h : s.next a = some s') : s.Next a s' := by
  unfold next at h
  split at h
  case h_1 => exact Option.some.inj h ▸ .root
  case h_2 =>
    obtain ⟨hg, rfl⟩ := of_guard h
    exact .decref hg
  case h_3 =>
    obtain ⟨hg, rfl⟩ := of_guard h
    exact .free hg.1 hg.2
  case h_4 =>
    obtain ⟨hg, rfl⟩ := of_guard h
    exact .lookup hg.1 hg.2
  case h_5 =>
    obtain ⟨hg, rfl⟩ := of_guard h
    exact .unlink hg.1 hg.2.1
  case h_6 =>
    obtain ⟨hg, rfl⟩ := of_guard h
    exact .rename hg.1 hg.2.1 hg.2.2.1 hg.2.2.2.1
  case h_7 =>
    obtain ⟨hg, rfl⟩ := of_guard h
    exact .create hg.1 hg.2.1 hg.2.2.1 hg.2.2.2.1 hg.2.2.2.2
  case h_14 =>
    split at h
    case h_2 => cases h
    case h_1 hfr =>
      obtain ⟨hg, rfl⟩ := of_guard h
      exact .move hfr hg
  case h_16 =>
    split at h
    case h_3 hfr => exact Option.some.inj h ▸ .abort hfr
    all_goals cases h
  all_goals
    split at h
    all_goals first | cases h | skip
  · exact .read ‹_›
  · exact .get ‹_›
  · exact .fill ‹_›
  · exact .insertFilled ‹_›
  · exact .insertCreated ‹_›
  · exact .finish ‹_› h
  · exact .climb ‹_›
  · exact .setParent ‹_›

/-- The file that the entry looked up by a call names now. -/
def named (s : World n) (fr : Frame) : Option Nat :=
  fr.walk.bind fun w => (s.disk.find (s.file w.dir) w.name).map s.disk.owner

def observe (s : World n) : World n :=
  { s with seen := fun t => (s.named (s.frame t)).toList ++ s.seen t }

def step (s : World n) (a : Act n) : Option (World n) := (s.next a).map observe

/-- Nothing is cached yet, and no call runs. -/
def boot (n : Nat) (d : Disk) : World n where
  disk := d
  node := fun _ => ⟨0, 0, true, none⟩
  made := 1
  cached := []
  held := []
  frame := fun _ => .idle
  renamer := none
  seen := fun _ => []

end World
end Vex.Fs.Names
