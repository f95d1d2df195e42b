import Vex.Fs.Path

/-! Mounting and unmounting (`mount.c`) over the namespace that paths are resolved in. References
are those that somebody took and is to drop; the one each cached directory holds on its parent is
not among them, so resolving a path takes one reference, on what it finds. Every call runs under
`mounts_mutex`. -/

namespace Vex.Fs

open Function

theorem update_root {new : Vfs} (h : new.root = (vfs f).root) (f' : Nat) :
    (update vfs f new f').root = (vfs f').root := by
  by_cases hf : f' = f
  · subst hf
    simpa using h
  · rw [update_of_ne hf]

namespace Tree

variable (t : Tree)

/-- A file system comes into being, with `root` as its root and mounted nowhere. -/
def newFs (root : Nat) (hroot : ∀ f, (t.vfs f).mountpoint ≠ some root) : Tree :=
  { t with
    fs := update t.fs root (some t.numFs)
    vfs := update t.vfs t.numFs { root := root, mountpoint := none, unmounting := false }
    numFs := t.numFs + 1
    fs_lt := by
      intro v f hf
      by_cases hv : v = root
      · simp only [hv, update_self, Option.some.injEq] at hf
        omega
      · rw [update_of_ne hv] at hf
        exact Nat.lt_succ_of_lt (t.fs_lt v f hf)
    older := by
      intro f m g hm hg
      by_cases hf : f = t.numFs
      · simp [hf] at hm
      rw [update_of_ne hf] at hm
      have hne : m ≠ root := fun h => hroot f (h ▸ hm)
      rw [update_of_ne hne] at hg
      exact t.older f m g hm hg }

/-- A change to one `vfs_t`. A mountpoint it gets is on an older file system. -/
def setVfs (f : Nat) (vfs : Vfs) (h : ∀ m g, vfs.mountpoint = some m → t.fs m = some g → g < f) :
    Tree :=
  { t with
    vfs := update t.vfs f vfs
    older := by
      intro f' m g hm hg
      by_cases hf : f' = f
      · subst hf
        exact h m g (by simpa using hm) hg
      · rw [update_of_ne hf] at hm
        exact t.older f' m g hm hg }

/-- `f` is mounted on the mountpoint, or is the root of everything. -/
def attach (f : Nat) (mountpoint : Option Nat)
    (h : ∀ m g, mountpoint = some m → t.fs m = some g → g < f) : Tree :=
  { t.setVfs f { t.vfs f with mountpoint := mountpoint } h with
    mountedFs := fun v => if mountpoint = some v then some f else t.mountedFs v
    vfsRoot := if mountpoint = none then some (t.vfs f).root else t.vfsRoot }

/-- `f` is taken off its mountpoint, or is not the root of everything any more. -/
def detach (f : Nat) : Tree :=
  { t.setVfs f { t.vfs f with mountpoint := none } (fun _ _ h => by cases h) with
    mountedFs := fun v => if (t.vfs f).mountpoint = some v then none else t.mountedFs v
    vfsRoot := if t.vfsRoot = some (t.vfs f).root then none else t.vfsRoot }

def setUnmounting (f : Nat) (unmounting : Bool) : Tree :=
  t.setVfs f { t.vfs f with unmounting := unmounting } fun m g => t.older f m g

/-- The vnode is no more. -/
def destroy (v : Nat) : Tree :=
  { t with
    fs := update t.fs v none
    fs_lt := by
      intro v' f hf
      by_cases hv : v' = v
      · simp [hv] at hf
      · rw [update_of_ne hv] at hf
        exact t.fs_lt v' f hf
    older := by
      intro f m g hm hg
      by_cases hv : m = v
      · simp [hv] at hg
      · rw [update_of_ne hv] at hg
        exact t.older f m g hm hg }

end Tree

structure MountEntry where
  path : Name
  fs : Nat
  deriving DecidableEq, Repr

/-- The fields of `vfs_driver_t` by which a driver is chosen. -/
structure Driver where
  name : Name
  probe : Option (Option Nat → Bool)

structure Namespace where
  tree : Tree
  /-- The reference count of each vnode, and of each volume. -/
  refs : Nat → Nat
  volumeRefs : Nat → Nat
  /-- `fs->volume`. -/
  volume : Nat → Option Nat
  /-- File systems whose `vfs_t` is not freed. -/
  allocated : Nat → Bool
  /-- From `mounts_head` on. -/
  mounts : List MountEntry
  drivers : List Driver
  mounted_lt : ∀ v f, tree.mountedFs v = some f → f < tree.numFs
  /-- Nothing is mounted on its own root. -/
  apart : ∀ v f, tree.mountedFs v = some f → (tree.vfs f).root ≠ v
  entry_lt : ∀ entry ∈ mounts, entry.fs < tree.numFs

namespace Namespace

/-- The root vnode that a driver's `mount` made: there was none with its number, and the path to
mount on does not lead to it. -/
structure NewRoot (ns : Namespace) (path : Option Name) where
  root : Nat
  unborn : ns.tree.fs root = none
  unreferenced : ns.refs root = 0
  noMountpoint : ∀ f, (ns.tree.vfs f).mountpoint ≠ some root
  notVfsRoot : ns.tree.vfsRoot ≠ some root
  notFound : ∀ p ∈ path, ns.tree.pathResolve kernelCredentials p ≠ .ok root

/-- The arguments of `vfs_mount`, and what the driver and the allocators answer. The parameters only
go to the driver, which mounts without them if they cannot be copied. -/
structure MountCall (ns : Namespace) where
  type : Option Name
  path : Option Name
  volume : Option Nat
  /-- `slab_alloc` of the `vfs_t`. -/
  fsMemory : Bool
  /-- `dev_unit_alloc`. -/
  unit : Except Errno Unit
  /-- `driver->ops->mount`. -/
  mounted : Except Errno (ns.NewRoot path)
  /-- `slab_alloc` of the entry, and `kstrdup` of the path. -/
  entryMemory : Bool
  pathMemory : Bool

variable (ns : Namespace)

def findDriver (name : Name) : Option Driver := ns.drivers.find? (·.name = name)

def deduceDriver (volume : Option Nat) : Option Driver :=
  ns.drivers.find? fun driver => driver.probe.any (· volume)

/-- The driver `mount_locked` uses. -/
def driverFor (type : Option Name) (volume : Option Nat) : Option Driver :=
  match type with
  | none => ns.deduceDriver volume
  | some name => ns.findDriver name

def setDev (volume : Option Nat) (unit : Except Errno Unit) : Except Errno Unit :=
  if volume.isSome then .ok () else unit

/-- What is to be mounted on: nothing for the path "/", which is not resolved. -/
def mountpointAt (path : Name) : Except Errno (Option Nat) :=
  if path = [SLASH] then .ok none
  else match ns.tree.pathResolve kernelCredentials path with
    | .error e => .error e
    | .ok m => .ok (some m)

def incref (v : Nat) : Namespace := { ns with refs := update ns.refs v (ns.refs v + 1) }

def decref (v : Nat) : Namespace := { ns with refs := update ns.refs v (ns.refs v - 1) }

/-- The driver has filled in the new `vfs_t`, and holds a reference to its root. -/
def newFs {path : Option Name} (new : ns.NewRoot path) (volume : Option Nat) : Namespace :=
  { ns with
    tree := ns.tree.newFs new.root new.noMountpoint
    refs := update ns.refs new.root 1
    volume := update ns.volume ns.tree.numFs volume
    allocated := update ns.allocated ns.tree.numFs true
    mounted_lt := fun v f hf => Nat.lt_succ_of_lt (ns.mounted_lt v f hf)
    apart := by
      intro v f hf
      have hne : f ≠ ns.tree.numFs := Nat.ne_of_lt (ns.mounted_lt v f hf)
      simpa [Tree.newFs, hne] using ns.apart v f hf
    entry_lt := fun entry he => Nat.lt_succ_of_lt (ns.entry_lt entry he) }

/-- The file system `f` becomes visible. The reference to the mountpoint is the one `path_resolve`
took; without a mountpoint there is one to the new root. -/
def attach (f : Nat) (mountpoint : Option Nat) (hf : f < ns.tree.numFs)
    (h : ∀ m, mountpoint = some m → (ns.tree.vfs f).root ≠ m ∧ ∀ g, ns.tree.fs m = some g → g < f) :
    Namespace :=
  { ns.incref (mountpoint.getD (ns.tree.vfs f).root) with
    tree := ns.tree.attach f mountpoint fun m g hm => (h m hm).2 g
    mounted_lt := by
      intro v f' hv
      rcases ite_eq_iff.mp hv with ⟨-, hf'⟩ | ⟨-, hold⟩
      · exact Option.some.inj hf' ▸ hf
      · exact ns.mounted_lt v f' hold
    apart := by
      intro v f' hv
      refine (update_root (by rfl) f').trans_ne ?_
      rcases ite_eq_iff.mp hv with ⟨hm, hf'⟩ | ⟨-, hold⟩
      · cases hf'
        exact (h v hm).1
      · exact ns.apart v f' hold
    entry_lt := ns.entry_lt }

/-- `vcache_evict`, `ops->unmount` and `free_fs`. The driver drops its reference to the root, which
is out of the cache by then and goes with the last one. -/
def discard (f : Nat) : Namespace :=
  let root := (ns.tree.vfs f).root
  { ns.decref root with
    tree := if ns.refs root ≤ 1 then ns.tree.destroy root else ns.tree
    allocated := update ns.allocated f false
    mounted_lt := by split <;> exact ns.mounted_lt
    apart := by split <;> exact ns.apart
    entry_lt := by split <;> exact ns.entry_lt }

variable {ns} in
theorem mountpointAt_older (new : ns.NewRoot path) (hp : p ∈ path)
    (h : ns.mountpointAt p = .ok mountpoint) (volume : Option Nat) (m : Nat)
    (hm : mountpoint = some m) :
    ((ns.newFs new volume).tree.vfs ns.tree.numFs).root ≠ m ∧
      ∀ g, (ns.newFs new volume).tree.fs m = some g → g < ns.tree.numFs := by
  subst hm
  have hfound : ns.tree.pathResolve kernelCredentials p = .ok m := by
    unfold mountpointAt at h
    split at h
    · cases h
    · split at h <;> cases h
      assumption
  have hne : m ≠ new.root := by
    rintro rfl
    exact new.notFound p hp hfound
  refine ⟨by simpa [newFs, Tree.newFs] using hne.symm, fun g hg => ?_⟩
  exact ns.tree.fs_lt m g (by simpa [newFs, Tree.newFs, hne] using hg)

/-- The entry of a new mount, and its reference to the volume. -/
def enter (path : Name) (f : Nat) (volume : Option Nat) (hf : f < ns.tree.numFs) : Namespace :=
  { ns with
    mounts := { path := path, fs := f } :: ns.mounts
    volumeRefs := fun v => if volume = some v then ns.volumeRefs v + 1 else ns.volumeRefs v
    entry_lt := by
      intro entry he
      rcases List.mem_cons.mp he with rfl | hold
      · exact hf
      · exact ns.entry_lt entry hold }

/-- The mount is visible: it gets its entry, or an exit that takes nothing back. -/
def mountVisible (c : ns.MountCall) (path : Name) (f : Nat) (visible : Namespace)
    (hf : f < visible.tree.numFs) : Except Errno Unit × Namespace :=
  if ¬c.entryMemory then (.error .ENOMEM, visible.discard f)
  else if ¬c.pathMemory then (.error .ENOMEM, visible.discard f)
  else (.ok (), visible.enter path f c.volume hf)

theorem numFs_lt : ns.tree.numFs < ns.tree.numFs + 1 := Nat.lt_succ_self _

/-- `mount_locked` from the driver's `mount` on. -/
def mountNew (c : ns.MountCall) (path : Name) (hpath : path ∈ c.path) (new : ns.NewRoot c.path) :
    Except Errno Unit × Namespace :=
  match hm : ns.mountpointAt path with
  | .error e => (.error e, (ns.newFs new c.volume).discard ns.tree.numFs)
  | .ok mountpoint =>
    ns.mountVisible c path ns.tree.numFs
      ((ns.newFs new c.volume).attach ns.tree.numFs mountpoint ns.numFs_lt
        (mountpointAt_older new hpath hm c.volume)) ns.numFs_lt

/-- `mount_locked`. What is allocated and freed before the driver's `mount` leaves no trace. -/
def mountLocked (c : ns.MountCall) : Except Errno Unit × Namespace :=
  match hpath : c.path with
  | none => (.error .EINVAL, ns)
  | some path =>
    match ns.driverFor c.type c.volume with
    | none => (.error .ENOENT, ns)
    | some _ =>
      if ¬c.fsMemory then (.error .ENOMEM, ns)
      else match setDev c.volume c.unit with
        | .error e => (.error e, ns)
        | .ok () =>
          match c.mounted with
          | .error e => (.error e, ns)
          | .ok new => ns.mountNew c path hpath new

/-- What `vfs_unmount` is told about the file system: `fcache_sync`, the orphans and references left
and `vfs_sync_fs`. -/
structure UnmountAnswers where
  fcacheSync : Except Errno Unit
  busy : Bool
  syncFs : Except Errno Unit
  deriving DecidableEq

def UnmountAnswers.check (a : UnmountAnswers) : Except Errno Unit :=
  match a.fcacheSync with
  | .error e => .error e
  | .ok () =>
    if a.busy then .error .EBUSY
    else match a.syncFs with
      | .error e => if e = .ENOSYS then .ok () else .error e
      | .ok () => .ok ()

def setUnmounting (f : Nat) (unmounting : Bool) : Namespace :=
  { ns with
    tree := ns.tree.setUnmounting f unmounting
    mounted_lt := ns.mounted_lt
    apart := fun v f' hv => (update_root (by rfl) f').trans_ne (ns.apart v f' hv)
    entry_lt := ns.entry_lt }

/-- `f` is not visible any more, and the references to its mountpoint and to its root that kept it
so are dropped. -/
def detach (f : Nat) : Namespace :=
  let root := (ns.tree.vfs f).root
  { ns with
    tree := ns.tree.detach f
    refs := fun v =>
      let left := if (ns.tree.vfs f).mountpoint = some v then ns.refs v - 1 else ns.refs v
      if ns.tree.vfsRoot = some root ∧ v = root then left - 1 else left
    mounted_lt := fun v f' hv => ns.mounted_lt v f' (Option.ite_none_left_eq_some.mp hv).2
    apart := fun v f' hv => (update_root (by rfl) f').trans_ne
      (ns.apart v f' (Option.ite_none_left_eq_some.mp hv).2)
    entry_lt := ns.entry_lt }

/-- The first entry with the path goes, and the reference to the volume. -/
def leave (path : Name) (volume : Option Nat) : Namespace :=
  { ns with
    mounts := ns.mounts.eraseP (·.path = path)
    volumeRefs := fun v => if volume = some v then ns.volumeRefs v - 1 else ns.volumeRefs v
    entry_lt := fun entry he => ns.entry_lt entry (List.mem_of_mem_eraseP he) }

def vfsUnmount (path : Name) (answers : UnmountAnswers) : Except Errno Unit × Namespace :=
  match ns.mounts.find? (·.path = path) with
  | none => (.error .ENOENT, ns)
  | some entry =>
    let f := entry.fs
    match answers.check with
    | .error e => (.error e, ns.setUnmounting f false)
    | .ok () =>
      (.ok (), (((ns.setUnmounting f true).detach f).discard f).leave path (ns.volume f))

end Namespace

end Vex.Fs
