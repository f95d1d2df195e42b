import Vex.Fs.Mount

/-! What a mount leaves behind: when it is undone by an unmount of the same path, and when it
fails. -/

namespace Vex.Fs.Namespace

open Fs.Tree

attribute [local simp] Tree.newFs newFs Tree.setUnmounting attach Namespace.discard setVfs
  setUnmounting incref enter

variable {ns : Namespace}

/-! ## Undoing a mount -/

/-- What the rest of the kernel sees of the mounts, and the reference counts. -/
structure SameView (ns ns' : Namespace) : Prop where
  cross : ∀ v, ns'.tree.vfsCrossMount v = ns.tree.vfsCrossMount v
  root : ns'.tree.vfsGetRoot = ns.tree.vfsGetRoot
  refs : ∀ v, ns'.refs v = ns.refs v
  volumeRefs : ∀ v, ns'.volumeRefs v = ns.volumeRefs v

/-- A mount on `path` hides no earlier one. -/
def HidesNothing (ns : Namespace) (path : Name) : Prop :=
  if path = [SLASH] then ns.tree.vfsGetRoot = none
  else ∀ m, ns.tree.pathResolve kernelCredentials path = .ok m →
    ns.tree.type m = .directory → ns.tree.mountedFs m = none

/-- The mount `c` gets as far as to be visible. -/
structure Shows (c : ns.MountCall) (path : Name) (new : ns.NewRoot c.path)
    (mountpoint : Option Nat) : Prop where
  given : path ∈ c.path
  driver : (ns.driverFor c.type c.volume).isSome
  memory : c.fsMemory
  dev : setDev c.volume c.unit = .ok ()
  mounted : c.mounted = .ok new
  found : ns.mountpointAt path = .ok mountpoint

/-- The namespace in which the mount is visible. -/
def Shows.visible {c : ns.MountCall} {path : Name} {new : ns.NewRoot c.path}
    {mountpoint : Option Nat} (h : Shows c path new mountpoint) : Namespace :=
  (ns.newFs new c.volume).attach ns.tree.numFs mountpoint ns.numFs_lt
    (mountpointAt_older new h.given h.found c.volume)

/-- A mount fails before anything of it is visible, or goes on from there. -/
theorem mountLocked_cases (c : ns.MountCall) :
    (∃ e, ns.mountLocked c = (.error e, ns) ∧ ∀ path new m, ¬Shows c path new m) ∨
    (∃ (new : ns.NewRoot c.path) (e : Errno), ns.mountLocked c =
        (.error e, (ns.newFs new c.volume).discard ns.tree.numFs) ∧
      ∀ path new m, ¬Shows c path new m) ∨
    ∃ path new m, ∃ h : Shows c path new m,
      ns.mountLocked c = ns.mountVisible c path ns.tree.numFs h.visible ns.numFs_lt := by
  unfold mountLocked
  split
  case h_1 hpt =>
    exact .inl ⟨_, rfl, fun _ _ _ h => by cases hpt.symm.trans h.given⟩
  rename_i path hpt
  split
  case h_1 hdrv => exact .inl ⟨_, rfl, fun _ _ _ h => by simpa [hdrv] using h.driver⟩
  rename_i driver hdrv
  split
  case isTrue hmem => exact .inl ⟨_, rfl, fun _ _ _ h => hmem h.memory⟩
  rename_i hmem
  split
  case h_1 hdev => exact .inl ⟨_, rfl, fun _ _ _ h => by cases hdev.symm.trans h.dev⟩
  rename_i hdev
  split
  case h_1 herr => exact .inl ⟨_, rfl, fun _ _ _ h => by cases herr.symm.trans h.mounted⟩
  rename_i new hnew
  unfold mountNew
  split
  case h_1 e he =>
    refine .inr (.inl ⟨new, e, rfl, fun path' _ _ h => ?_⟩)
    obtain rfl : path = path' := Option.some.inj (hpt.symm.trans h.given)
    cases he.symm.trans h.found
  case h_2 mountpoint hm =>
    refine .inr (.inr ⟨path, new, mountpoint, ⟨hpt, ?_, ?_, hdev, hnew, hm⟩, rfl⟩)
    · simp [hdrv]
    · simpa using hmem

section

variable {c : ns.MountCall} {path : Name} {new : ns.NewRoot c.path} {mountpoint : Option Nat}
  (h : Shows c path new mountpoint)

include h in
theorem Shows.ne_root (hm : mountpoint = some m) : m ≠ new.root := by
  have hne := (mountpointAt_older new h.given h.found c.volume m hm).1
  simpa [eq_comm] using hne

theorem Shows.vfs : h.visible.tree.vfs ns.tree.numFs =
    { root := new.root, mountpoint := mountpoint, unmounting := false } := by
  simp [visible, Tree.attach]

theorem Shows.vfs_of_lt (hf : f < ns.tree.numFs) : h.visible.tree.vfs f = ns.tree.vfs f := by
  have hne : f ≠ ns.tree.numFs := Nat.ne_of_lt hf
  simp [visible, Tree.attach, hne]

theorem Shows.vfsRoot :
    h.visible.tree.vfsRoot = if mountpoint = none then some new.root else ns.tree.vfsRoot := by
  simp [visible, Tree.attach]

/-- The mountpoint is referenced once more, or else the root twice. -/
theorem Shows.refs (v : Nat) : h.visible.refs v =
    if v = new.root then (if mountpoint = none then 2 else 1)
    else if mountpoint = some v then ns.refs v + 1 else ns.refs v := by
  cases mountpoint with
  | none =>
    by_cases hv : v = new.root
    · simp [visible, hv]
    · simp [visible, hv]
  | some m =>
    have hm := h.ne_root rfl
    by_cases hv : v = m
    · simp [visible, hv, hm]
    have hmv : m ≠ v := Ne.symm hv
    by_cases hvr : v = new.root
    · simp [visible, hvr, hm.symm]
    · simp [visible, hv, hvr, hmv]

/-- After a successful mount. -/
def Shows.entered : Namespace :=
  h.visible.enter path ns.tree.numFs c.volume ns.numFs_lt

/-- After `vfs_unmount` has taken the new mount out of sight. -/
def Shows.detached : Namespace :=
  (h.entered.setUnmounting ns.tree.numFs true).detach ns.tree.numFs

theorem Shows.detached_vfs : h.detached.tree.vfs ns.tree.numFs =
    { root := new.root, mountpoint := none, unmounting := true } := by
  simp [detached, entered, detach, Tree.detach, h.vfs]

theorem Shows.detached_vfs_of_lt (hf : f < ns.tree.numFs) :
    h.detached.tree.vfs f = ns.tree.vfs f := by
  have hne : f ≠ ns.tree.numFs := Nat.ne_of_lt hf
  simp [detached, entered, detach, Tree.detach, hne, h.vfs_of_lt hf]

theorem Shows.detached_mountedFs (v : Nat) : h.detached.tree.mountedFs v =
    if mountpoint = some v then none else ns.tree.mountedFs v := by
  have hmp : ((h.visible.tree.setUnmounting ns.tree.numFs true).vfs ns.tree.numFs).mountpoint =
      mountpoint := by
    simp [h.vfs]
  change (if ((h.visible.tree.setUnmounting ns.tree.numFs true).vfs
    ns.tree.numFs).mountpoint = some v then none else h.visible.tree.mountedFs v) = _
  rw [hmp]
  split
  case isTrue => rfl
  case isFalse hv => exact if_neg hv

theorem Shows.detached_vfsRoot :
    h.detached.tree.vfsRoot = if mountpoint = none then none else ns.tree.vfsRoot := by
  have hdet : h.detached.tree.vfsRoot =
      if h.visible.tree.vfsRoot = some new.root then none else h.visible.tree.vfsRoot := by
    simp [detached, entered, detach, Tree.detach, h.vfs]
  rw [hdet, h.vfsRoot]
  cases mountpoint with
  | none => simp
  | some m => simp [new.notVfsRoot]

theorem Shows.detached_refs (v : Nat) :
    h.detached.refs v = if v = new.root then 1 else ns.refs v := by
  have hdet : h.detached.refs v =
      let left := if mountpoint = some v then h.visible.refs v - 1 else h.visible.refs v
      if h.visible.tree.vfsRoot = some new.root ∧ v = new.root then left - 1 else left := by
    simp [detached, entered, detach, h.vfs]
  rw [hdet, h.refs, h.vfsRoot]
  cases mountpoint with
  | none =>
    by_cases hv : v = new.root
    · simp [hv]
    · simp [hv]
  | some m =>
    have hm := h.ne_root rfl
    by_cases hv : v = new.root
    · simp [hv, hm, new.notVfsRoot]
    by_cases hvm : m = v
    · simp [hv, hvm]
    · simp [hv, hvm]

/-- What is left of a mount on `mountpoint` that was undone. -/
structure Undone (ns ns' : Namespace) (mountpoint : Option Nat) : Prop where
  type : ns'.tree.type = ns.tree.type
  fs : ∀ v, ns'.tree.fs v = ns.tree.fs v
  vfs : ∀ f < ns.tree.numFs, ns'.tree.vfs f = ns.tree.vfs f
  mountedFs : ∀ v, ns'.tree.mountedFs v = if mountpoint = some v then none else ns.tree.mountedFs v
  vfsRoot : ns'.tree.vfsRoot = if mountpoint = none then none else ns.tree.vfsRoot
  refs : ∀ v, ns'.refs v = ns.refs v
  volumeRefs : ∀ v, ns'.volumeRefs v = ns.volumeRefs v

theorem Shows.detached_fs (hv : v ≠ new.root) : h.detached.tree.fs v = ns.tree.fs v := by
  exact Function.update_of_ne hv ..

theorem Shows.detached_volumeRefs (v : Nat) : h.detached.volumeRefs v =
    if c.volume = some v then ns.volumeRefs v + 1 else ns.volumeRefs v := rfl

theorem Shows.undone :
    Undone ns ((h.detached.discard ns.tree.numFs).leave path c.volume) mountpoint := by
  have hlast : h.detached.refs (h.detached.tree.vfs ns.tree.numFs).root ≤ 1 := by
    simp [h.detached_vfs, h.detached_refs]
  have htr : ((h.detached.discard ns.tree.numFs).leave path c.volume).tree =
      h.detached.tree.destroy new.root := by
    simp only [leave, discard, if_pos hlast]
    rw [h.detached_vfs]
  refine ⟨?_, ?_, ?_, ?_, ?_, ?_, ?_⟩
  · rw [htr]
    rfl
  · intro v
    rw [htr]
    by_cases hv : v = new.root
    · simp [destroy, hv, new.unborn]
    · simp [destroy, hv, h.detached_fs hv]
  · intro f hf
    rw [htr]
    exact h.detached_vfs_of_lt hf
  · rw [htr]
    exact h.detached_mountedFs
  · rw [htr]
    exact h.detached_vfsRoot
  · intro v
    by_cases hv : v = new.root
    · simp [leave, discard, decref, h.detached_vfs, h.detached_refs, hv, new.unreferenced]
    · simp [leave, discard, decref, h.detached_vfs, h.detached_refs, hv]
  · intro v
    change (if c.volume = some v then h.detached.volumeRefs v - 1 else h.detached.volumeRefs v) = _
    rw [h.detached_volumeRefs]
    by_cases hv : c.volume = some v
    · simp [hv]
    · simp [hv]

end

/-- The first entry with the path is the one just made. -/
theorem Shows.undone_of_vfsUnmount {new : ns.NewRoot c.path} (h : Shows c path new mountpoint)
    (hun : h.entered.vfsUnmount path answers = (.ok (), ns')) : Undone ns ns' mountpoint := by
  have hfst : h.entered.mounts.find? (·.path = path) =
      some { path := path, fs := ns.tree.numFs } := by
    simp [entered]
  have hvol : h.entered.volume ns.tree.numFs = c.volume := by
    simp [entered, visible]
  unfold vfsUnmount at hun
  rw [hfst] at hun
  simp only [hvol] at hun
  split at hun
  case h_1 => cases hun
  case h_2 =>
    cases hun
    exact h.undone

theorem mountVisible_eq : ns.mountVisible c path f visible hf =
      if c.entryMemory ∧ c.pathMemory then (.ok (), visible.enter path f c.volume hf)
      else (.error .ENOMEM, visible.discard f) := by
  unfold mountVisible
  cases c.entryMemory <;> cases c.pathMemory <;> rfl

theorem mountLocked_eq_ok (h : ns.mountLocked c = (.ok (), ns')) :
    ∃ path new mountpoint, ∃ hs : Shows c path new mountpoint, ns' = hs.entered := by
  rcases mountLocked_cases c with ⟨e, he, -⟩ | ⟨new, e, he, -⟩ | ⟨path, new, mountpoint, hs, he⟩
  · cases he.symm.trans h
  · cases he.symm.trans h
  replace h := mountVisible_eq.symm.trans (he.symm.trans h)
  split at h
  case isTrue =>
    cases h
    exact ⟨path, new, mountpoint, hs, rfl⟩
  case isFalse => cases h

theorem Undone.cross (h : Undone ns ns' mountpoint) (v : Nat) : ns'.tree.vfsCrossMount v =
      if mountpoint = some v then .ok v else ns.tree.vfsCrossMount v := by
  unfold vfsCrossMount
  rw [h.type, h.mountedFs]
  by_cases hv : mountpoint = some v
  · simp [hv]
  simp only [if_neg hv]
  split
  case isTrue => rfl
  case isFalse =>
    cases hf : ns.tree.mountedFs v with
    | none => rfl
    | some f => simp only [h.vfs f (ns.mounted_lt v f hf)]

theorem Undone.getRoot (h : Undone ns ns' mountpoint) :
    ns'.tree.vfsGetRoot = if mountpoint = none then none else ns.tree.vfsGetRoot := by
  unfold vfsGetRoot
  rw [h.vfsRoot]
  by_cases hm : mountpoint = none
  · simp [hm]
  simp only [if_neg hm]
  refine Option.bind_congr fun root _ => ?_
  rw [h.fs root]
  cases hf : ns.tree.fs root with
  | none => rfl
  | some f => simp [h.vfs f (ns.tree.fs_lt root f hf)]

theorem vfsCrossMount_eq_self : ns.tree.vfsCrossMount m = .ok m ↔
    (ns.tree.type m = .directory → ns.tree.mountedFs m = none) := by
  unfold vfsCrossMount
  by_cases htp : ns.tree.type m = .directory
  · cases hf : ns.tree.mountedFs m with
    | none => simp
    | some f =>
      have hrt := ns.apart m f hf
      by_cases hun : (ns.tree.vfs f).unmounting
      · simp [hun]
      · simp [hun, hrt]
  · simp [htp]

/-- A mount and an unmount of the same path in a row leave everything as it was, if the mount hid
nothing: no root, for the path "/", and no mount on the directory that the path leads to. -/
theorem unmount_undoes_mount {c : ns.MountCall} {path : Name} {answers : UnmountAnswers}
    {ns1 ns2 : Namespace} (hpath : c.path = some path) (hmount : ns.mountLocked c = (.ok (), ns1))
    (hunmount : ns1.vfsUnmount path answers = (.ok (), ns2)) :
    SameView ns ns2 ↔ ns.HidesNothing path := by
  obtain ⟨path', new, mountpoint, hs, rfl⟩ := mountLocked_eq_ok hmount
  obtain rfl : path = path' := Option.some.inj (hpath.symm.trans hs.given)
  have hundone := hs.undone_of_vfsUnmount hunmount
  have hfound := hs.found
  unfold HidesNothing
  by_cases hslash : path = [SLASH]
  · obtain rfl : none = mountpoint := by
      simpa [mountpointAt, hslash] using hfound
    rw [if_pos hslash]
    constructor
    · intro hsame
      rw [← hsame.root, hundone.getRoot, if_pos rfl]
    intro hnone
    refine ⟨fun v => ?_, ?_, hundone.refs, hundone.volumeRefs⟩
    · rw [hundone.cross, if_neg (by simp)]
    · rw [hundone.getRoot, if_pos rfl, hnone]
  · rw [if_neg hslash]
    obtain ⟨m, hm, rfl⟩ : ∃ m, ns.tree.pathResolve kernelCredentials path = .ok m ∧
        mountpoint = some m := by
      simp only [mountpointAt, if_neg hslash] at hfound
      split at hfound <;> cases hfound
      exact ⟨_, by assumption, rfl⟩
    have hcross : (∀ m', ns.tree.pathResolve kernelCredentials path = .ok m' →
        ns.tree.type m' = .directory → ns.tree.mountedFs m' = none) ↔
        ns.tree.vfsCrossMount m = .ok m := by
      simp [hm, vfsCrossMount_eq_self]
    rw [hcross]
    constructor
    · intro hsame
      rw [← hsame.cross m, hundone.cross, if_pos rfl]
    intro hself
    refine ⟨fun v => ?_, ?_, hundone.refs, hundone.volumeRefs⟩
    · rw [hundone.cross]
      split
      case isTrue hv =>
        cases hv
        exact hself.symm
      case isFalse => rfl
    · rw [hundone.getRoot, if_neg (by simp)]

/-- A root directory (vnode 0) with a directory `d` (vnode 1), on which the file system with the
root vnode 2 is mounted if `covered`. -/
def twoDirs (covered : Bool) : Namespace where
  tree :=
    { type := fun _ => .directory
      fs := fun v => if v ≤ 1 then some 0 else if v = 2 ∧ covered then some 1 else none
      parent := fun v => if v = 1 then some 0 else none
      mountedFs := fun v => if v = 1 ∧ covered then some 1 else none
      entry := fun v name => if v = 0 ∧ name = [100] then .ok 1 else .error .ENOENT
      stat := fun _ => .ok { mode := 0x41ED, uid := 0, gid := 0, size := 0 }
      readlink := fun _ _ => .error .EINVAL
      vfs := fun f =>
        if f = 1 then { root := 2, mountpoint := some 1, unmounting := false }
        else { root := 0, mountpoint := none, unmounting := false }
      numFs := 2
      vfsRoot := some 0
      fs_lt := by grind
      older := by grind }
  refs := fun v => if v = 0 then 2 else if v ≤ 2 ∧ covered then 1 else 0
  volumeRefs := fun _ => 0
  volume := fun _ => none
  allocated := fun f => f = 0 ∨ f = 1 ∧ covered
  mounts :=
    (if covered then [{ path := [47, 100], fs := 1 }] else []) ++ [{ path := [47], fs := 0 }]
  drivers := [{ name := [101], probe := none }]
  mounted_lt := by grind
  apart := by grind
  entry_lt := by cases covered <;> simp

theorem twoDirs_pathResolve (covered : Bool) :
    (twoDirs covered).tree.pathResolve kernelCredentials [47, 100] ≠ .ok 3 := by
  cases covered <;> decide +kernel

/-- The root vnode that the driver makes. -/
def newRoot (covered : Bool) {path : Name}
    (h : (twoDirs covered).tree.pathResolve kernelCredentials path ≠ .ok 3) :
    (twoDirs covered).NewRoot (some path) where
  root := 3
  unborn := by simp [twoDirs]
  unreferenced := by simp [twoDirs]
  noMountpoint := by intro f; simp only [twoDirs]; split <;> simp
  notVfsRoot := by simp [twoDirs]
  notFound := by simpa using h

/-- The file system with the root vnode 3 is mounted on `/d`. -/
def mountOnD (covered : Bool) : (twoDirs covered).MountCall where
  type := some [101]
  path := some [47, 100]
  volume := none
  fsMemory := true
  unit := .ok ()
  mounted := .ok (newRoot covered (twoDirs_pathResolve covered))
  entryMemory := true
  pathMemory := true

/-- Nothing speaks against the unmount. -/
def idle : UnmountAnswers := { fcacheSync := .ok (), busy := false, syncFs := .ok () }

theorem stacked_mount_uncovers_nothing : ∃ ns1 ns2,
    (twoDirs true).mountLocked (mountOnD true) = (.ok (), ns1) ∧
      ns1.vfsUnmount [47, 100] idle = (.ok (), ns2) ∧
      (twoDirs true).tree.vfsCrossMount 1 = .ok 2 ∧ ns2.tree.vfsCrossMount 1 = .ok 1 :=
  ⟨_, _, Prod.ext (by decide +kernel) rfl, Prod.ext (by decide +kernel) rfl, by decide +kernel,
    by decide +kernel⟩

theorem unmount_undoes_mount_d : ∃ ns1 ns2,
    (twoDirs false).mountLocked (mountOnD false) = (.ok (), ns1) ∧
      ns1.vfsUnmount [47, 100] idle = (.ok (), ns2) ∧ SameView (twoDirs false) ns2 := by
  have hmount : (twoDirs false).mountLocked (mountOnD false) = (.ok (), _) :=
    Prod.ext (by decide +kernel) rfl
  have hunmount : ((twoDirs false).mountLocked (mountOnD false)).2.vfsUnmount [47, 100] idle =
      (.ok (), _) :=
    Prod.ext (by decide +kernel) rfl
  refine ⟨_, _, hmount, hunmount, (unmount_undoes_mount rfl hmount hunmount).mpr ?_⟩
  rw [HidesNothing]
  simp [twoDirs]

/-! ## A mount that fails -/

/-- `vfs_t` number `f` can be come by: through a mountpoint, the root of everything or an entry. -/
def Reaches (ns : Namespace) (f : Nat) : Prop :=
  (∃ v, ns.tree.mountedFs v = some f) ∨ (∃ r, ns.tree.vfsRoot = some r ∧ ns.tree.fs r = some f) ∨
    ∃ entry ∈ ns.mounts, entry.fs = f

/-- What a call that failed must leave as it was; the `vfs_t` it freed cannot be come by. -/
structure NoTrace (ns ns' : Namespace) : Prop where
  mounts : ns'.mounts = ns.mounts
  vfsRoot : ns'.tree.vfsRoot = ns.tree.vfsRoot
  mountedFs : ∀ v, ns'.tree.mountedFs v = ns.tree.mountedFs v
  refs : ∀ v, ns'.refs v = ns.refs v
  volumeRefs : ∀ v, ns'.volumeRefs v = ns.volumeRefs v
  freed : ¬ns'.Reaches ns.tree.numFs

/-- A file system that there is not yet cannot be come by. -/
theorem not_reaches {ns' : Namespace} (h : ∀ v f, ns'.tree.fs v = some f → f < ns.tree.numFs)
    (hmnt : ns'.mounts = ns.mounts)
    (hmounted : ∀ v, ns'.tree.mountedFs v = ns.tree.mountedFs v) : ¬ns'.Reaches ns.tree.numFs := by
  rintro (⟨v, hv⟩ | ⟨r, -, hr⟩ | ⟨entry, he, hf⟩)
  · exact absurd (ns.mounted_lt v _ ((hmounted v).symm.trans hv)) (Nat.lt_irrefl _)
  · exact absurd (h r _ hr) (Nat.lt_irrefl _)
  · exact absurd (hf ▸ ns.entry_lt entry (hmnt ▸ he)) (Nat.lt_irrefl _)

theorem NoTrace.refl : NoTrace ns ns :=
  ⟨rfl, rfl, fun _ => rfl, fun _ => rfl, fun _ => rfl, not_reaches ns.tree.fs_lt rfl fun _ => rfl⟩

/-- The exit when the path does not resolve frees all there is. -/
theorem NoTrace.discard (new : ns.NewRoot path) (volume : Option Nat) :
    NoTrace ns ((ns.newFs new volume).discard ns.tree.numFs) := by
  have htr : ((ns.newFs new volume).discard ns.tree.numFs).tree =
      (ns.tree.newFs new.root new.noMountpoint).destroy new.root := by
    simp
  refine ⟨rfl, by rw [htr]; rfl, fun v => by rw [htr]; rfl, fun v => ?_, fun _ => rfl, ?_⟩
  · by_cases hv : v = new.root
    · simp [decref, hv, new.unreferenced]
    · simp [decref, hv]
  · refine not_reaches (fun v f hf => ?_) rfl fun v => by rw [htr]; rfl
    rw [htr] at hf
    by_cases hv : v = new.root
    · simp [destroy, hv] at hf
    · exact ns.tree.fs_lt v f (by simpa [destroy, hv] using hf)

/-- The exits after that leave the root of everything, or the reference to the mountpoint. -/
theorem Shows.not_noTrace {new : ns.NewRoot c.path} (h : Shows c path new mountpoint) :
    ¬NoTrace ns (h.visible.discard ns.tree.numFs) := by
  intro hnone
  cases mountpoint with
  | none =>
    have hrt : (h.visible.discard ns.tree.numFs).tree.vfsRoot = h.visible.tree.vfsRoot := by
      simp only [Namespace.discard]
      split <;> rfl
    rw [h.vfsRoot] at hrt
    exact new.notVfsRoot (hnone.vfsRoot.symm.trans hrt)
  | some m =>
    have hm := h.ne_root rfl
    have hrf : (h.visible.discard ns.tree.numFs).refs m = ns.refs m + 1 := by
      simp [decref, h.vfs, h.refs, hm]
    have hsame := hnone.refs m
    omega

/-- A mount that fails leaves no trace, unless it was visible by then: the two allocations that
come after that do not fail. -/
theorem failed_mount_leaves_no_trace {c : ns.MountCall} {e : Errno} {ns' : Namespace}
    (hfail : ns.mountLocked c = (.error e, ns')) :
    NoTrace ns ns' ↔
      ∀ path new mountpoint, Shows c path new mountpoint → c.entryMemory ∧ c.pathMemory := by
  rcases mountLocked_cases c with
    ⟨e', he, hnot⟩ | ⟨new, e', he, hnot⟩ | ⟨path, new, mountpoint, hs, he⟩
  · cases he.symm.trans hfail
    exact iff_of_true .refl fun path new m hs => absurd hs (hnot path new m)
  · cases he.symm.trans hfail
    exact iff_of_true (.discard new c.volume) fun path new m hs => absurd hs (hnot path new m)
  replace hfail := mountVisible_eq.symm.trans (he.symm.trans hfail)
  split at hfail
  case isTrue => cases hfail
  case isFalse hmem =>
    cases hfail
    exact iff_of_false hs.not_noTrace fun h => hmem (h path new mountpoint hs)

/-- As `mountOnD`, but there is no memory for the entry. -/
def mountWithoutEntry : (twoDirs false).MountCall := { mountOnD false with entryMemory := false }

/-- The mount on `/d` fails, and crossing `/d` leads to the root of the file system that was freed,
without a reference to it. -/
theorem failed_mount_stays_visible : ∃ ns',
    (twoDirs false).mountLocked mountWithoutEntry = (.error .ENOMEM, ns') ∧
      ns'.tree.mountedFs 1 = some 2 ∧ ns'.allocated 2 = false ∧
      ns'.tree.vfsCrossMount 1 = .ok 3 ∧ ns'.refs 3 = 0 ∧ ns'.refs 1 = 1 ∧
      (twoDirs false).refs 1 = 0 :=
  ⟨_, Prod.ext (by decide +kernel) rfl, by decide +kernel, by decide +kernel, by decide +kernel,
    by decide +kernel, by decide +kernel, by decide +kernel⟩

/-- As `mountOnD`, but the path is `/e`, which there is not. -/
def mountOnE : (twoDirs false).MountCall :=
  { mountOnD false with
    path := some [47, 101]
    mounted := .ok (newRoot false (by decide +kernel)) }

theorem failed_mount_leaves_no_trace_unresolved : ∃ ns',
    (twoDirs false).mountLocked mountOnE = (.error .ENOENT, ns') ∧ NoTrace (twoDirs false) ns' := by
  have hfail : (twoDirs false).mountLocked mountOnE = (.error .ENOENT, _) :=
    Prod.ext (by decide +kernel) rfl
  exact ⟨_, hfail, (failed_mount_leaves_no_trace hfail).mpr fun path new m _ => ⟨rfl, rfl⟩⟩

end Vex.Fs.Namespace
