import Vex.Fs.NamesCache
import Vex.Fs.Vcache

/-! How many vnodes a file has. Here the calls of `vnode.c` run one at a time, each to its end, on
any number of mounted file systems that share the vnode cache. A driver makes its root vnode itself,
and the vnode of its device, which is no file's, and neither enters the cache. References are not
counted: any vnode but these two may lose its last one between two calls. -/

namespace Vex.Fs.Live

open Vex.Lib Function Vcache Option
open Names (Disk)

structure Node where
  fs : Nat
  /-- The file on the volume. -/
  file : Nat
  ino : Nat
  dir : Bool
  orphaned : Bool
  deriving DecidableEq, Repr

/-- A mounted file system. -/
structure Volume where
  disk : Disk
  /-- `fs->root`, and the number that the driver gives it. -/
  root : Nat
  rootIno : Nat
  /-- The driver's `device_node`. -/
  device : Nat

structure World where
  mounts : Nat → Option Volume
  node : Nat → Node
  /-- Vnodes made so far. -/
  made : Nat
  alive : Nat → Bool
  vc : Vcache

inductive Act
  /-- `ops->mount` of the file system `fs`. -/
  | mount (fs : Nat) (d : Disk) (rootIno : Nat)
  /-- `vnode_lookup`. `dots` is what the driver has for `.` and `..`, and `ok` whether there is
  memory for a new vnode. -/
  | lookup (d : Nat) (name : Name) (dots : Option Nat) (ok : Bool)
  /-- `vnode_create`, or `devfs_insert` if `pinned`. -/
  | create (d : Nat) (name : Name) (ino : Nat) (directory pinned ok : Bool)
  | unlink (d : Nat) (name : Name) (directory ok : Bool)
  /-- `vnode_rename`, with the number of the file afterwards. -/
  | rename (olddir : Nat) (oldname : Name) (newdir : Nat) (newname : Name) (ino : Nat) (ok : Bool)
  /-- The last reference is dropped; at most `max` vnodes stay in the cache unused. -/
  | release (v max : Nat)

namespace Volume

def setDisk (m : Volume) (d : Disk) : Volume := { m with disk := d }

/-- `ops->lookup`. -/
def number (m : Volume) (file : Nat) (name : Name) (dots : Option Nat) : Option Nat :=
  if isDots name then dots else m.disk.find file name

/-- Whether `fill_node` succeeds. -/
def fills (m : Volume) (i : Nat) : Bool :=
  m.disk.inUse i || i == m.rootIno || m.disk.driver == .fat

def owner (m : Volume) (i : Nat) : Nat := if i = m.rootIno then 0 else m.disk.owner i

/-- The vnode that `fill_node` sets up. -/
def fillNode (m : Volume) (fs i : Nat) : Node := ⟨fs, m.owner i, i, m.disk.isDir (m.owner i), false⟩

end Volume

namespace World

def boot : World := ⟨fun _ => none, fun _ => ⟨0, 0, 0, false, false⟩, 0, fun _ => false, .empty⟩

def alloc (s : World) (x : Node) : World :=
  { s with
    node := update s.node s.made x
    made := s.made + 1
    alive := update s.alive s.made true }

def setVolume (s : World) (fs : Nat) (m : Volume) : World :=
  { s with mounts := update s.mounts fs (some m) }

attribute [local simp] World.setVolume

/-- `vcache_get_or_insert` of a new vnode, which is destroyed if there is one already. -/
def insertNode (s : World) (x : Node) (pinned : Bool) : Nat × World :=
  match s.vc.insert s.made x.fs x.ino pinned with
  | (w, c) => (w, if w = s.made then { s.alloc x with vc := c } else { s with vc := c })

/-- `lookup_crossed` for the number `i`. -/
def nodeFor (s : World) (fs : Nat) (m : Volume) (i : Nat) (ok : Bool) : Option (Nat × World) :=
  match s.vc.get fs i with
  | some (w, c) => some (w, { s with vc := c })
  | none => if m.fills i && ok then some (s.insertNode (m.fillNode fs i) false) else none

def lookupCrossed (s : World) (d : Nat) (name : Name) (dots : Option Nat) (ok : Bool) :
    Option (Nat × World) :=
  (s.mounts (s.node d).fs).bind fun m =>
    (m.number (s.node d).file name dots).bind fun i => s.nodeFor (s.node d).fs m i ok

/-- `vcache_remove` of a vnode whose number no entry has any more, which is an orphan then. -/
def forget (s : World) (m : Volume) (v : Nat) : World :=
  if m.disk.inUse (s.node v).ino then s
  else { s with
    vc := s.vc.remove v
    node := update s.node v { s.node v with orphaned := true } }

/-- `ops->create`. -/
def createFile (s : World) (m : Volume) (d : Nat) (name : Name) (i : Nat) (directory : Bool) :
    World :=
  s.setVolume (s.node d).fs (m.setDisk (m.disk.create (s.node d).file name i directory))

/-- `create_crossed`, or `devfs_insert` if `pinned`. -/
def create (s : World) (d : Nat) (name : Name) (i : Nat) (directory pinned ok : Bool) :
    Option World :=
  (s.mounts (s.node d).fs).bind fun m =>
    if m.disk.find (s.node d).file name = none ∧ ¬m.disk.inUse i ∧ i ≠ m.rootIno then
      some (if ok then ((s.createFile m d name i directory).insertNode
          ⟨(s.node d).fs, m.disk.files, i, directory, false⟩ pinned).2
        else s.createFile m d name i directory)
    else none

/-- What `unlink_crossed` and the driver check. -/
def MayUnlink (s : World) (m : Volume) (d : Nat) (name : Name) (directory : Bool) (v : Nat) :
    Prop :=
  (s.node v).dir = directory ∧ m.disk.find (s.node d).file name = some (s.node v).ino ∧
    (directory → m.disk.isEmpty (s.node v).file)

instance (s : World) (m : Volume) (d : Nat) (name : Name) (directory : Bool) (v : Nat) :
    Decidable (s.MayUnlink m d name directory v) := inferInstanceAs (Decidable (_ ∧ _ ∧ (_ → _)))

/-- What `ops->unlink` leaves on the volume. -/
def unlinked (s : World) (m : Volume) (d : Nat) (name : Name) : Volume :=
  m.setDisk (m.disk.remove (s.node d).file name)

/-- `unlink_crossed`, once the victim is found. -/
def unlinkFound (s : World) (m : Volume) (d : Nat) (name : Name) (directory : Bool) (v : Nat) :
    World :=
  if s.MayUnlink m d name directory v then
    (s.setVolume (s.node d).fs (s.unlinked m d name)).forget (s.unlinked m d name) v
  else s

def unlink (s : World) (d : Nat) (name : Name) (directory ok : Bool) : Option World :=
  if isDots name then none
  else (s.mounts (s.node d).fs).bind fun m => (s.lookupCrossed d name none ok).map fun r =>
    r.2.unlinkFound m d name directory r.1

/-- What `check_rename` and the driver check, but for `is_ancestor`, which may also refuse. -/
def MayMove (s : World) (m : Volume) (r : Names.Rename) (i : Nat) : Prop :=
  m.disk.find (s.node r.olddir).file r.oldname = some (s.node r.source).ino ∧
    m.disk.find (s.node r.newdir).file r.newname = r.victim.map (fun v => (s.node v).ino) ∧
    r.victim ≠ some r.source ∧ m.disk.MayRenumber (s.node r.source).ino i ∧ i ≠ m.rootIno

instance (s : World) (m : Volume) (r : Names.Rename) (i : Nat) : Decidable (s.MayMove m r i) :=
  inferInstanceAs (Decidable (_ ∧ _ ∧ _ ∧ _ ∧ _))

/-- `vcache_rekey`, which only FAT calls. -/
def rekey (s : World) (m : Volume) (v i : Nat) : World :=
  if m.disk.driver = .fat then
    { s with
      vc := s.vc.rekey v i
      node := update s.node v { s.node v with ino := i } }
  else s

/-- What `ops->rename` leaves on the volume. -/
def renamed (s : World) (m : Volume) (r : Names.Rename) (i : Nat) : Volume :=
  m.setDisk (m.disk.rename (s.node r.olddir).file r.oldname (s.node r.newdir).file r.newname
    (s.node r.source).ino i)

def forgetVictim (s : World) (m : Volume) : Option Nat → World
  | none => s
  | some v => s.forget m v

/-- `rename_crossed`, once source and victim are found. -/
def moveFound (s : World) (fs : Nat) (m : Volume) (r : Names.Rename) (i : Nat) : World :=
  if s.MayMove m r i then
    ((s.setVolume fs (s.renamed m r i)).forgetVictim (s.renamed m r i) r.victim).rekey m r.source i
  else s

/-- The victim of a rename, if there is one. -/
def findVictim (s : World) (newdir : Nat) (newname : Name) (ok : Bool) : Option Nat × World :=
  match s.lookupCrossed newdir newname none ok with
  | none => (none, s)
  | some (v, s') => (some v, s')

def rename (s : World) (olddir : Nat) (oldname : Name) (newdir : Nat) (newname : Name) (i : Nat)
    (ok : Bool) : Option World :=
  if isDots oldname ∨ isDots newname ∨ (s.node olddir).fs ≠ (s.node newdir).fs then none
  else (s.mounts (s.node olddir).fs).bind fun m =>
    (s.lookupCrossed olddir oldname none ok).map fun r =>
      (r.2.findVictim newdir newname ok).2.moveFound (s.node olddir).fs m
        ⟨olddir, oldname, r.1, newdir, newname, (r.2.findVictim newdir newname ok).1⟩ i

/-- `vcache_keep` of a vnode without references, and the `vnode_destroy` that follows. -/
def release (s : World) (v max : Nat) : World :=
  match s.vc.keep max 0 v with
  | .used => s
  | .uncached => { s with alive := update s.alive v false }
  | .queued c evicted => { s with vc := c, alive := fun w => s.alive w && !evicted.contains w }

def isRoot (s : World) (v : Nat) : Bool := (s.mounts (s.node v).fs).any fun m => m.root == v

def isDevice (s : World) (v : Nat) : Bool := (s.mounts (s.node v).fs).any fun m => m.device == v

/-- The vnodes that a mount makes: `fcache_dev_create` leaves the number 0. -/
def allocMount (s : World) (fs rootIno : Nat) : World :=
  (s.alloc ⟨fs, 0, 0, false, false⟩).alloc ⟨fs, 0, rootIno, true, false⟩

def step (s : World) : Act → Option World
  | .mount fs d rootIno =>
    if s.mounts fs = none ∧ ∀ v < s.made, s.alive v → (s.node v).fs ≠ fs then
      some ((s.allocMount fs rootIno).setVolume fs ⟨d, s.made + 1, rootIno, s.made⟩)
    else none
  | .lookup d name dots ok =>
    if s.alive d then (s.lookupCrossed d name dots ok).map (·.2) else none
  | .create d name i directory pinned ok =>
    if s.alive d then s.create d name i directory pinned ok else none
  | .unlink d name directory ok => if s.alive d then s.unlink d name directory ok else none
  | .rename olddir oldname newdir newname i ok =>
    if s.alive olddir ∧ s.alive newdir then s.rename olddir oldname newdir newname i ok else none
  | .release v max =>
    if s.alive v ∧ ¬s.isRoot v ∧ ¬s.isDevice v then some (s.release v max) else none

/-! ## The invariant -/

/-- Every vnode but the orphans, the roots and the devices is in the cache under its own key, and
its number is in use on the volume, unless it is among the vnodes `P` that an operation has still to
deal with. -/
structure Inv (P : Nat → Prop) (s : World) : Prop where
  ok : s.vc.Ok
  volume : ∀ {fs m}, s.mounts fs = some m → m.disk.Tidy ∧ ¬m.disk.inUse m.rootIno
  root : ∀ {fs m}, s.mounts fs = some m →
    m.root < s.made ∧ (s.node m.root).fs = fs ∧ (s.node m.root).ino = m.rootIno ∧
      s.vc.key m.root = none
  cached : ∀ {v fs i}, s.vc.key v = some (fs, i) → s.alive v ∧ (s.node v).orphaned = false ∧
    (s.node v).fs = fs ∧ (s.node v).ino = i ∧ ∃ m, s.mounts fs = some m ∧ (P v ∨ m.disk.inUse i)
  uncached : ∀ {v}, s.alive v → (s.node v).orphaned = false → s.vc.key v = none →
    ∃ m, s.mounts (s.node v).fs = some m ∧ (m.root = v ∨ m.device = v)
  made : ∀ {v}, s.alive v → v < s.made

def nobody (_ : Nat) : Prop := False

variable {s s' : World} {P Q : Nat → Prop} {v w fs i : Nat} {m m' : Volume}

theorem Inv.key_none (h : s.Inv P) (hv : s.made ≤ v) : s.vc.key v = none := by
  cases hk : s.vc.key v with
  | none => rfl
  | some k => exact absurd (h.made (h.cached hk).1) (Nat.not_lt_of_le hv)

theorem Inv.setCache (h : s.Inv P) (hok : c.Ok) (hk : ∀ v, c.key v = s.vc.key v) :
    Inv P { s with vc := c } where
  ok := hok
  volume := h.volume
  root := fun hm => by
    obtain ⟨h1, h2, h3, h4⟩ := h.root hm
    exact ⟨h1, h2, h3, (hk _).trans h4⟩
  cached := fun hv => h.cached ((hk _).symm.trans hv)
  uncached := fun ha ho hv => h.uncached ha ho ((hk _).symm.trans hv)
  made := h.made

section
variable {x : Node}

theorem alloc_node (hv : v < s.made) : (s.alloc x).node v = s.node v :=
  update_of_ne (Nat.ne_of_lt hv) ..

theorem alloc_self : (s.alloc x).node s.made = x := update_self ..

theorem alloc_alive (x : Node) : (s.alloc x).alive v ↔ v = s.made ∨ s.alive v := by
  by_cases hv : v = s.made <;> simp [alloc, hv]

theorem Inv.alive_lt (h : s.Inv P) (x : Node) (hv : (s.alloc x).alive v) : v < s.made + 1 := by
  rcases (alloc_alive x).1 hv with rfl | hv
  · exact Nat.lt_succ_self _
  · exact Nat.lt_succ_of_lt (h.made hv)

end

theorem allocMount_node (hv : v < s.made) : (s.allocMount fs i).node v = s.node v :=
  (alloc_node (Nat.lt_succ_of_lt hv)).trans (alloc_node hv)

theorem allocMount_root : (s.allocMount fs i).node (s.made + 1) = ⟨fs, 0, i, true, false⟩ :=
  alloc_self

theorem allocMount_device : (s.allocMount fs i).node s.made = ⟨fs, 0, 0, false, false⟩ :=
  (alloc_node (Nat.lt_succ_self _)).trans alloc_self

theorem allocMount_alive (fs i : Nat) :
    (s.allocMount fs i).alive v ↔ v = s.made + 1 ∨ v = s.made ∨ s.alive v :=
  (alloc_alive _).trans (or_congr_right (alloc_alive _))

theorem Inv.push (h : s.Inv P) (hm : s.mounts x.fs = some m) (hi : m.disk.inUse x.ino)
    (ho : x.orphaned = false) (hf : s.vc.findNolock x.fs x.ino = none) :
    Inv P { s.alloc x with vc := s.vc.bucketPush s.made ⟨x.fs, x.ino, pinned, false⟩ } := by
  have hnew : s.vc.entry s.made = none := by
    have := h.key_none (Nat.le_refl _)
    rwa [Vcache.key, map_eq_none_iff] at this
  refine ⟨h.ok.bucketPush hnew rfl hf, h.volume, fun {fs m} hm => ?_, fun {v fs i} hk => ?_,
    fun {v} hv hov hk => ?_, h.alive_lt x⟩
  · obtain ⟨h1, h2, h3, h4⟩ := h.root hm
    refine ⟨Nat.lt_succ_of_lt h1, ?_, ?_, ?_⟩
    · exact (congrArg Node.fs (alloc_node h1)).trans h2
    · exact (congrArg Node.ino (alloc_node h1)).trans h3
    · rw [key_bucketPush, if_neg (Nat.ne_of_lt h1)]
      exact h4
  · rw [key_bucketPush] at hk
    split at hk
    case isTrue hv =>
      subst hv
      cases hk
      refine ⟨(alloc_alive x).2 (.inl rfl), ?_, ?_, ?_, m, hm, .inr hi⟩ <;>
        simp only [alloc_self, ho]
    case isFalse hv =>
      obtain ⟨h1, h2, h3, h4, h5⟩ := h.cached hk
      refine ⟨(alloc_alive x).2 (.inr h1), ?_, ?_, ?_, h5⟩ <;> simpa only [alloc_node (h.made h1)]
  · rw [key_bucketPush] at hk
    split at hk
    · cases hk
    case isFalse hvn =>
      have hv := ((alloc_alive x).1 hv).resolve_left hvn
      simp only [alloc_node (h.made hv)] at hov ⊢
      exact h.uncached hv hov hk

/-- What a lookup of a number that is in use leaves: its vnode, in the cache and in use. -/
structure Found (s s' : World) (fs i w : Nat) : Prop where
  inv : s'.Inv nobody
  mounts : s'.mounts = s.mounts
  key : s'.vc.key w = some (fs, i)
  used : w ∉ s'.vc.queue
  node : ∀ {v}, s.alive v → s'.alive v ∧ s'.node v = s.node v
  keys : ∀ {v}, s.alive v → s'.vc.key v = s.vc.key v
  queue : ∀ {v}, v ∉ s.vc.queue → v ∉ s'.vc.queue

theorem Found.take (h : s.Inv nobody) (hf : s.vc.findNolock fs i = some w) :
    Found s { s with vc := s.vc.takeNolock w } fs i w := by
  obtain ⟨e, he, hk⟩ := h.ok.find.1 hf
  refine ⟨h.setCache (h.ok.takeNolock he) fun v => key_takeNolock, rfl, ?_, ?_,
    fun hv => ⟨hv, rfl⟩, fun _ => key_takeNolock, fun hv hq => ?_⟩
  · rw [key_takeNolock]
    exact h.ok.find_iff_key.1 hf
  · rw [h.ok.mem_takeNolock]
    simp
  · exact hv (h.ok.mem_takeNolock.1 hq).1

theorem Found.insertNode (h : s.Inv nobody) (hm : s.mounts x.fs = some m) (hi : m.disk.inUse x.ino)
    (ho : x.orphaned = false) (hr : s.insertNode x pinned = (w, s')) : Found s s' x.fs x.ino w := by
  unfold World.insertNode Vcache.insert at hr
  cases hf : s.vc.findNolock x.fs x.ino with
  | some u =>
    have hu : u ≠ s.made := by
      have := h.ok.find_iff_key.1 hf
      exact Nat.ne_of_lt (h.made (h.cached this).1)
    simp only [hf, if_neg hu] at hr
    cases hr
    exact .take h hf
  | none =>
    simp only [hf, if_pos] at hr
    cases hr
    have hq : s.made ∉ s.vc.queue := by
      rw [h.ok.queued]
      have := h.key_none (Nat.le_refl _)
      rw [Vcache.key, map_eq_none_iff] at this
      simp [this]
    have hne : ∀ {v}, s.alive v → v ≠ s.made := fun hv => Nat.ne_of_lt (h.made hv)
    refine ⟨h.push hm hi ho hf, rfl, ?_, hq, fun hv => ?_, fun hv => ?_, fun hv => hv⟩
    · rw [key_bucketPush, if_pos rfl]
    · exact ⟨by simp [alloc, hne hv, hv], by simp [alloc, hne hv]⟩
    · rw [key_bucketPush, if_neg (hne hv)]

theorem Found.nodeFor (h : s.Inv nobody) (hm : s.mounts fs = some m) (hi : m.disk.inUse i)
    (hr : s.nodeFor fs m i ok = some (w, s')) : Found s s' fs i w := by
  unfold World.nodeFor Vcache.get at hr
  cases hf : s.vc.findNolock fs i with
  | some u =>
    simp only [hf] at hr
    cases hr
    exact .take h hf
  | none =>
    simp only [hf] at hr
    obtain ⟨-, hr⟩ := ite_none_right_eq_some.1 hr
    exact Found.insertNode h hm hi rfl (some.inj hr)

theorem Found.lookupCrossed (h : s.Inv nobody) (hdots : ¬isDots name)
    (hr : s.lookupCrossed d name dots ok = some (w, s')) : ∃ m i,
      s.mounts (s.node d).fs = some m ∧ m.disk.find (s.node d).file name = some i ∧
      Found s s' (s.node d).fs i w := by
  obtain ⟨m, hm, hr⟩ := bind_eq_some_iff.1 hr
  obtain ⟨i, hi, hr⟩ := bind_eq_some_iff.1 hr
  rw [Volume.number, if_neg hdots] at hi
  exact ⟨m, i, hm, hi, .nodeFor h hm (Disk.inUse_of_find hi) hr⟩

/-! ## Changes of a volume -/

theorem mounts_update (h : update s.mounts fs (some m) fs' = some k) :
    fs' = fs ∧ k = m ∨ fs' ≠ fs ∧ s.mounts fs' = some k := by
  by_cases hf : fs' = fs
  · subst hf
    exact .inl ⟨rfl, by simpa [eq_comm] using h⟩
  · exact .inr ⟨hf, by simpa [hf] using h⟩

/-- The volume changes; `Q` are the cached vnodes whose number it does not know any more. -/
theorem Inv.setVolume (h : s.Inv P) (hm : s.mounts fs = some m) (hrt : m'.root = m.root)
    (hino : m'.rootIno = m.rootIno) (hdev : m'.device = m.device) (hty : m'.disk.Tidy)
    (hfree : ¬m'.disk.inUse m.rootIno)
    (hkeep : ∀ {v i}, s.vc.key v = some (fs, i) → P v ∨ m.disk.inUse i → Q v ∨ m'.disk.inUse i)
    (hPQ : ∀ {v}, P v → Q v) : (s.setVolume fs m').Inv Q := by
  refine ⟨h.ok, fun hk => ?_, fun hk => ?_, fun {v fs' i} hk => ?_, fun {v} hv hov hk => ?_, h.made⟩
  · rcases mounts_update hk with ⟨rfl, rfl⟩ | ⟨-, hk⟩
    · exact ⟨hty, hino ▸ hfree⟩
    · exact h.volume hk
  · rcases mounts_update hk with ⟨rfl, rfl⟩ | ⟨-, hk⟩
    · rw [hrt, hino]
      exact h.root hm
    · exact h.root hk
  · obtain ⟨h1, h2, h3, h4, k, hk', h5⟩ := h.cached hk
    refine ⟨h1, h2, h3, h4, ?_⟩
    by_cases hf : fs' = fs
    · subst hf
      cases hk'.symm.trans hm
      exact ⟨m', by simp, hkeep hk h5⟩
    · exact ⟨k, by simpa [hf] using hk', h5.imp_left hPQ⟩
  · obtain ⟨k, hk', hrt'⟩ := h.uncached hv hov hk
    by_cases hf : (s.node v).fs = fs
    · refine ⟨m', by simp [hf], ?_⟩
      rw [hf] at hk'
      cases hk'.symm.trans hm
      exact hrt'.imp hrt.trans hdev.trans
    · exact ⟨k, by simpa [hf] using hk', hrt'⟩

theorem Inv.root_ne (h : s.Inv P) (hk : s.vc.key v = some k) (hm : s.mounts fs = some m) :
    m.root ≠ v := by
  rintro rfl
  rw [(h.root hm).2.2.2] at hk
  cases hk

/-- Only a vnode in the cache changes, and is settled. -/
theorem Inv.change {x : Node} (h : s.Inv P) (hk : s.vc.key v = some k) (hok : c.Ok)
    (hks : ∀ {w}, w ≠ v → c.key w = s.vc.key w)
    (hsf : ∀ {fs i}, c.key v = some (fs, i) → x.orphaned = false ∧ x.fs = fs ∧ x.ino = i ∧
      ∃ m, s.mounts fs = some m ∧ m.disk.inUse i) (hgn : c.key v = none → x.orphaned) :
    Inv (fun w => P w ∧ w ≠ v) { s with vc := c, node := update s.node v x } := by
  refine ⟨hok, h.volume, fun hm => ?_, fun {w fs i} hw => ?_, fun {w} hw how hkw => ?_, h.made⟩
  · have hne := h.root_ne hk hm
    simp only [update_of_ne hne, hks hne]
    exact h.root hm
  · by_cases hwv : w = v
    · subst hwv
      obtain ⟨h2, h3, h4, m, hm, hu⟩ := hsf hw
      simp only [update_self]
      exact ⟨(h.cached hk).1, h2, h3, h4, m, hm, .inr hu⟩
    · simp only [update_of_ne hwv, hks hwv] at hw ⊢
      obtain ⟨h1, h2, h3, h4, m, hm, h5⟩ := h.cached hw
      exact ⟨h1, h2, h3, h4, m, hm, h5.imp_left fun hp => ⟨hp, hwv⟩⟩
  · by_cases hwv : w = v
    · subst hwv
      simp [hgn hkw] at how
    · simp only [update_of_ne hwv, hks hwv] at how hkw ⊢
      exact h.uncached hw how hkw

theorem Inv.known (h : s.Inv P) (hm : s.mounts fs = some m) (hk : s.vc.key v = some (fs, i))
    (hu : m.disk.inUse i) : s.Inv (fun w => P w ∧ w ≠ v) := by
  obtain ⟨-, h2, h3, h4, -⟩ := h.cached hk
  have h' := h.change (x := s.node v) hk h.ok (fun _ => rfl) (fun hk' => ?_) (by simp [hk])
  · rwa [update_eq_self] at h'
  · cases hk.symm.trans hk'
    exact ⟨h2, h3, h4, m, hm, hu⟩

theorem Inv.forget (h : s.Inv P) (hm : s.mounts fs = some m) (hk : s.vc.key v = some (fs, i))
    (hq : v ∉ s.vc.queue) : (s.forget m v).Inv (fun w => P w ∧ w ≠ v) := by
  obtain ⟨-, -, hfs, hino, -⟩ := h.cached hk
  unfold World.forget
  split
  case isTrue hu => exact h.known hm hk (hino ▸ hu)
  obtain ⟨e, he, -⟩ := map_eq_some_iff.1 hk
  have hu : e.unused = false := by
    by_contra hu
    exact hq (h.ok.queued.2 ⟨e, he, by simpa using hu⟩)
  have hvc : s.vc.remove v = s.vc.bucketUnlink v := by simp [remove, he]
  rw [hvc]
  refine h.change hk (h.ok.bucketUnlink he hu) (fun hne => ?_) (fun hw => ?_) fun _ => rfl
  · rw [key_bucketUnlink, if_neg hne]
  · simp [key_bucketUnlink] at hw

theorem forget_vc : (s.forget m v).vc = s.vc ∨ (s.forget m v).vc = s.vc.bucketUnlink v := by
  unfold World.forget remove
  split
  · exact .inl rfl
  dsimp only
  split
  · exact .inl rfl
  · exact .inr rfl

theorem key_forget (hw : w ≠ v) : (s.forget m v).vc.key w = s.vc.key w := by
  rcases forget_vc with heq | heq <;> rw [heq]
  rw [key_bucketUnlink, if_neg hw]

theorem key_of_forget (hw : (s.forget m v).vc.key w = some k) : s.vc.key w = some k := by
  rcases forget_vc with heq | heq <;> rw [heq] at hw
  · exact hw
  rw [key_bucketUnlink] at hw
  split at hw
  · cases hw
  · exact hw

theorem queue_forget : (s.forget m v).vc.queue = s.vc.queue := by
  rcases forget_vc with heq | heq <;> rw [heq]
  rw [bucketUnlink_queue]

theorem mounts_forget : (s.forget m v).mounts = s.mounts := by
  unfold World.forget
  split <;> rfl

theorem Inv.mono (h : s.Inv P) (hPQ : ∀ {v}, P v → Q v) : s.Inv Q :=
  ⟨h.ok, h.volume, h.root, fun hk => by
    obtain ⟨h1, h2, h3, h4, m, hm, h5⟩ := h.cached hk
    exact ⟨h1, h2, h3, h4, m, hm, h5.imp_left hPQ⟩, h.uncached, h.made⟩

theorem Inv.rekey (h : s.Inv P) (hm : s.mounts fs = some m') (hk : s.vc.key v = some (fs, j))
    (hq : v ∉ s.vc.queue) (hi : m'.disk.inUse i) (hsame : m.disk.driver ≠ .fat → i = j)
    (hfree : m.disk.driver = .fat → ∀ {w}, s.vc.key w ≠ some (fs, i)) :
    (s.rekey m v i).Inv (fun w => P w ∧ w ≠ v) := by
  unfold World.rekey
  split
  case isFalse hfat => exact h.known hm hk (hsame hfat ▸ hi)
  rename_i hfat
  obtain ⟨e, he, ⟨⟩⟩ := map_eq_some_iff.1 hk
  obtain ⟨hok, hks⟩ := h.ok.rekey i he hq fun _ => hfree hfat
  obtain ⟨-, h2, h3, -⟩ := h.cached hk
  refine h.change hk hok (fun hne => ?_) (fun hv => ?_) fun hv => ?_
  · rw [hks, if_neg hne]
  · rw [hks, if_pos rfl] at hv
    cases hv
    exact ⟨h2, h3, rfl, m', hm, hi⟩
  · simp [hks] at hv

theorem Inv.key_inj (h : s.Inv P) (hv : s.vc.key v = some (fs, i)) (hw : s.vc.key w = some (fs, i))
    : v = w := by
  obtain ⟨e, he, hek⟩ := map_eq_some_iff.1 hv
  obtain ⟨f, hf, hfk⟩ := map_eq_some_iff.1 hw
  obtain ⟨h1, h2⟩ := Prod.mk.inj (hek.trans hfk.symm)
  exact h.ok.key he hf h1 h2

section
variable (h : s.Inv nobody)
include h

variable {d : Nat} {name : Name}

theorem Inv.createFile (hm : s.mounts (s.node d).fs = some m)
    (hn : m.disk.find (s.node d).file name = none) (hi : ¬m.disk.inUse i) (hrt : i ≠ m.rootIno) :
    (s.createFile m d name i directory).Inv nobody := by
  refine h.setVolume hm rfl rfl rfl ((h.volume hm).1.create hn hi) (fun hu => ?_)
    (fun _ hp => hp.imp_right fun hu => Disk.inUse_create.2 (.inr hu)) id
  rcases Disk.inUse_create.1 hu with he | hu
  · exact hrt he.symm
  · exact (h.volume hm).2 hu

theorem Inv.create {ok : Bool} (hr : s.create d name i directory pinned ok = some s') :
    s'.Inv nobody := by
  obtain ⟨m, hm, hr⟩ := bind_eq_some_iff.1 hr
  obtain ⟨⟨hn, hi, hrt⟩, hr⟩ := ite_none_right_eq_some.1 hr
  have h1 : (s.createFile m d name i directory).Inv nobody := h.createFile hm hn hi hrt
  cases hr
  split
  · refine (Found.insertNode h1 (m := m.setDisk (m.disk.create (s.node d).file name i directory)) ?_
      (Disk.inUse_create.2 (.inl rfl)) rfl rfl).inv
    simp [World.createFile]
  · exact h1

theorem Inv.unlinkFound (hm : s.mounts (s.node d).fs = some m)
    (hk : s.vc.key v = some ((s.node d).fs, i)) (hq : v ∉ s.vc.queue) :
    (s.unlinkFound m d name directory v).Inv nobody := by
  unfold World.unlinkFound
  split
  case isFalse => exact h
  rename_i hmay
  obtain ⟨-, hf, -⟩ := hmay
  obtain ⟨-, -, -, hino, -⟩ := h.cached hk
  rw [hino] at hf
  have hty := (h.volume hm).1
  have h1 : (s.setVolume (s.node d).fs (s.unlinked m d name)).Inv (· = v) := by
    refine h.setVolume hm rfl rfl rfl hty.remove
      (fun hu => (h.volume hm).2 (Disk.inUse_of_remove hu))
      (fun {w j} hw hp => ?_) fun hp => hp.elim
    by_cases hj : j = i
    · subst hj
      exact .inl (h.key_inj hw hk)
    · exact .inr (hty.inUse_remove hf hj (hp.resolve_left id))
  exact (h1.forget (by simp) hk hq).mono fun hp => hp.2 hp.1

theorem Inv.moveFound (hm : s.mounts fs = some m) (hsrc : s.vc.key r.source = some (fs, k))
    (hsq : r.source ∉ s.vc.queue)
    (hvic : ∀ v ∈ r.victim, (∃ j, s.vc.key v = some (fs, j)) ∧ v ∉ s.vc.queue) :
    (s.moveFound fs m r i).Inv nobody := by
  unfold World.moveFound
  split
  case isFalse => exact h
  rename_i hmay
  obtain ⟨hf, hfv, hne, hren, hi⟩ := hmay
  obtain ⟨-, -, -, rfl, -⟩ := h.cached hsrc
  have hty := (h.volume hm).1
  have hnew : (s.renamed m r i).disk.inUse i :=
    Disk.inUse_iff.2 ⟨_, Disk.mem_rename.2 (.inl rfl), rfl⟩
  have hbusy : ∀ {w j}, s.vc.key w = some (fs, j) → m.disk.inUse j := by
    intro w j hw
    obtain ⟨-, -, -, -, n, hn, hu⟩ := h.cached hw
    cases hn.symm.trans hm
    exact hu.resolve_left id
  have h1 : (s.setVolume fs (s.renamed m r i)).Inv
      (fun w => w = r.source ∨ r.victim = some w) := by
    refine h.setVolume hm rfl rfl rfl (hty.rename hf hren) (fun hu => ?_) (fun {w j} hw _ => ?_)
      fun hp => hp.elim
    · rcases Disk.inUse_of_rename hu with he | hu
      · exact hi he.symm
      · exact (h.volume hm).2 hu
    · obtain ⟨e, he, rfl⟩ := Disk.inUse_iff.1 (hbusy hw)
      by_cases hold : e.dir = (s.node r.olddir).file ∧ e.name = r.oldname
      · -- The entry of the source.
        have hj := some.inj ((hty.find he hold).symm.trans hf)
        exact .inl (.inl (h.key_inj (hj ▸ hw) hsrc))
      by_cases hover : e.dir = (s.node r.newdir).file ∧ e.name = r.newname
      · -- The entry of the victim.
        obtain ⟨v, hv, hj⟩ := map_eq_some_iff.1 (hfv.symm.trans (hty.find he hover))
        obtain ⟨⟨j, hkv⟩, -⟩ := hvic v hv
        obtain ⟨-, -, -, rfl, -⟩ := h.cached hkv
        exact .inl (.inr (hv.trans (congrArg some (h.key_inj (hj ▸ hkv) hw))))
      · exact .inr (Disk.inUse_iff.2 ⟨e, Disk.mem_rename.2 (.inr ⟨he, hold, hover⟩), rfl⟩)
  have hm1 : (s.setVolume fs (s.renamed m r i)).mounts fs = some (s.renamed m r i) := by
    simp
  have hsame : m.disk.driver ≠ .fat → i = (s.node r.source).ino := fun hfat => by
    simpa [Disk.MayRenumber, hfat] using hren
  have hfree : m.disk.driver = .fat → ∀ {w}, s.vc.key w ≠ some (fs, i) := by
    intro hfat w hw
    rw [Disk.MayRenumber, if_pos hfat] at hren
    simp [hbusy hw] at hren
  cases hv : r.victim with
  | none =>
    rw [hv] at h1
    refine (h1.rekey hm1 hsrc hsq hnew hsame hfree).mono fun hp => ?_
    exact hp.1.elim hp.2 (by simp)
  | some v =>
    rw [hv] at h1
    obtain ⟨⟨j, hkv⟩, hvq⟩ := hvic v hv
    have hsv : r.source ≠ v := fun he => hne (hv.trans (congrArg some he.symm))
    have h2 := h1.forget hm1 hkv hvq
    refine (h2.rekey (congrFun mounts_forget fs |>.trans hm1)
      ((key_forget hsv).trans hsrc) ?_ hnew hsame fun hfat {w} hw =>
        hfree hfat (key_of_forget (s := s.setVolume fs (s.renamed m r i)) hw)).mono ?_
    · rw [queue_forget]
      exact hsq
    rintro w ⟨⟨rfl | hp, hpv⟩, hps⟩
    · exact hps rfl
    · exact hpv (some.inj hp).symm

theorem Inv.unlink {ok : Bool} (hd : s.alive d) (hr : s.unlink d name directory ok = some s') :
    s'.Inv nobody := by
  obtain ⟨hdots, hr⟩ := ite_none_left_eq_some.1 hr
  obtain ⟨m, hm, hr⟩ := bind_eq_some_iff.1 hr
  obtain ⟨⟨v, s1⟩, hl, rfl⟩ := map_eq_some_iff.1 hr
  obtain ⟨-, i, -, -, hf⟩ := Found.lookupCrossed h hdots hl
  have hnd := (hf.node hd).2
  refine hf.inv.unlinkFound (i := i) ?_ ?_ hf.used
  · rw [hnd, hf.mounts, hm]
  · rw [hnd, hf.key]

theorem Inv.rename {ok : Bool} (hd : s.alive newdir)
    (hr : s.rename olddir oldname newdir newname i ok = some s') : s'.Inv nobody := by
  obtain ⟨hdots, hr⟩ := ite_none_left_eq_some.1 hr
  simp only [not_or, not_not] at hdots
  obtain ⟨ho, hn, hfs⟩ := hdots
  obtain ⟨m, hm, hr⟩ := bind_eq_some_iff.1 hr
  obtain ⟨⟨v, s1⟩, hl, rfl⟩ := map_eq_some_iff.1 hr
  obtain ⟨-, k, -, -, hf⟩ := Found.lookupCrossed h ho hl
  have hvalive := (hf.inv.cached hf.key).1
  unfold World.findVictim
  split
  case h_1 =>
    refine hf.inv.moveFound (by rw [hf.mounts, hm]) hf.key hf.used (by simp)
  rename_i w s2 hl2
  obtain ⟨-, j, -, -, hf2⟩ := Found.lookupCrossed hf.inv hn hl2
  refine hf2.inv.moveFound (by rw [hf2.mounts, hf.mounts, hm])
    ((hf2.keys hvalive).trans hf.key) (hf2.queue hf.used) fun u hu => ?_
  obtain rfl : w = u := some.inj hu
  refine ⟨⟨j, ?_⟩, hf2.used⟩
  rw [hf2.key, (hf.node hd).2, hfs]

theorem Inv.release {max : Nat} : (s.release v max).Inv nobody := by
  unfold World.release
  split
  case h_1 => exact h
  case h_2 hk =>
    obtain ⟨-, he⟩ := keep_uncached hk
    have hkey : s.vc.key v = none := by rw [Vcache.key, he]; rfl
    have halv : ∀ {w}, update s.alive v false w = true → s.alive w := by
      intro w hw
      by_cases hwv : w = v
      · simp [hwv] at hw
      · simpa [hwv] using hw
    refine ⟨h.ok, h.volume, h.root, fun {w fs i} hw => ?_, fun hw => h.uncached (halv hw),
      fun hw => h.made (halv hw)⟩
    obtain ⟨h1, h2⟩ := h.cached hw
    refine ⟨?_, h2⟩
    have hwv : w ≠ v := by
      rintro rfl
      rw [hkey] at hw
      cases hw
    simpa [hwv] using h1
  rename_i c evicted hk
  have hks : ∀ w, c.key w = if w ∈ evicted then none else s.vc.key w :=
    fun w => h.ok.key_keep hk
  refine ⟨(h.ok.keep hk).1, h.volume, fun hm => ?_, fun {w fs i} hw => ?_,
    fun {w} hw how hkw => ?_, fun {w} hw => ?_⟩
  · obtain ⟨h1, h2, h3, h4⟩ := h.root hm
    refine ⟨h1, h2, h3, ?_⟩
    simp [hks, h4]
  · simp only [hks] at hw
    split at hw
    · cases hw
    case isFalse hne =>
      obtain ⟨h1, h2⟩ := h.cached hw
      exact ⟨by simp [h1, hne], h2⟩
  · simp only [Bool.and_eq_true, Bool.not_eq_true', List.contains_eq_mem,
      decide_eq_false_iff_not] at hw
    simp only [hks, if_neg hw.2] at hkw
    exact h.uncached hw.1 how hkw
  · simp only [Bool.and_eq_true] at hw
    exact h.made hw.1

theorem Inv.mount {d : Disk} (hoth : ∀ v < s.made, s.alive v → (s.node v).fs ≠ fs) (hty : d.Tidy)
    (hrt : ¬d.inUse rootIno) :
    ((s.allocMount fs rootIno).setVolume fs ⟨d, s.made + 1, rootIno, s.made⟩).Inv nobody := by
  have hmnt : (s.allocMount fs rootIno).mounts = s.mounts := rfl
  refine ⟨h.ok, fun hk => ?_, fun hk => ?_, fun {v fs' i} hk => ?_, fun {v} hv hov hk => ?_,
    fun {v} hv => ?_⟩
  · rcases mounts_update hk with ⟨-, rfl⟩ | ⟨-, hk⟩
    · exact ⟨hty, hrt⟩
    · exact h.volume hk
  · obtain ⟨rfl, rfl⟩ | ⟨-, hk⟩ := mounts_update hk
    · simp only [World.setVolume, allocMount_root]
      exact ⟨Nat.lt_succ_self _, trivial, trivial, h.key_none (Nat.le_succ _)⟩
    · obtain ⟨h1, h2, h3, h4⟩ := h.root hk
      simp only [World.setVolume, allocMount_node h1]
      exact ⟨Nat.lt_succ_of_lt (Nat.lt_succ_of_lt h1), h2, h3, h4⟩
  · obtain ⟨h1, h2, h3, h4, m, hm, h5⟩ := h.cached hk
    have hf : fs' ≠ fs := h3 ▸ hoth v (h.made h1) h1
    simp only [World.setVolume, allocMount_node (h.made h1)]
    refine ⟨(allocMount_alive fs _).2 (.inr (.inr h1)), h2, h3, h4, m, ?_, h5⟩
    simpa [hf, hmnt] using hm
  · rcases (allocMount_alive fs rootIno).1 hv with rfl | rfl | hv
    · simp only [World.setVolume, allocMount_root]
      exact ⟨_, update_self .., .inl rfl⟩
    · simp only [World.setVolume, allocMount_device]
      exact ⟨_, update_self .., .inr rfl⟩
    · simp only [World.setVolume, allocMount_node (h.made hv)] at hov ⊢
      obtain ⟨m, hm, hr⟩ := h.uncached hv hov hk
      exact ⟨m, by simpa [hoth v (h.made hv) hv, hmnt] using hm, hr⟩
  · rcases (allocMount_alive fs rootIno).1 hv with rfl | rfl | hv
    · exact Nat.lt_succ_self _
    · exact Nat.lt_succ_of_lt (Nat.lt_succ_self _)
    · exact Nat.lt_succ_of_lt (Nat.lt_succ_of_lt (h.made hv))

end

/-! ## Whole runs -/

/-- The directory still has a name, or is a root. -/
def Listed (s : World) (d : Nat) : Prop :=
  (s.node d).file = 0 ∨ ∀ m ∈ s.mounts (s.node d).fs, m.disk.Alive (s.node d).file

/-- Volumes are well formed when they are mounted, calls are made only in directories that still
have a name, and only names other than `.` and `..` are looked up. -/
def Proper (s : World) : Act → Prop
  | .mount _ d rootIno => d.Tidy ∧ ¬d.inUse rootIno
  | .lookup d name _ _ => ¬isDots name ∧ s.Listed d
  | .create d .. | .unlink d .. => s.Listed d
  | .rename olddir _ newdir .. => s.Listed olddir ∧ s.Listed newdir
  | .release .. => True

theorem Inv.step {a : Act} (h : s.Inv nobody) (hs : Under Proper (Advances step) s a s') :
    s'.Inv nobody := by
  obtain ⟨hp, hs⟩ := hs
  cases a with
  | mount fs d rootIno =>
    obtain ⟨⟨-, hoth⟩, rfl⟩ := of_guard hs
    exact h.mount hoth hp.1 hp.2
  | lookup d name dots ok =>
    obtain ⟨-, hs⟩ := ite_none_right_eq_some.1 hs
    obtain ⟨⟨w, s1⟩, hl, rfl⟩ := map_eq_some_iff.1 hs
    obtain ⟨_, _, _, _, hf⟩ := Found.lookupCrossed h hp.1 hl
    exact hf.inv
  | create d name i directory pinned ok =>
    obtain ⟨-, hs⟩ := ite_none_right_eq_some.1 hs
    exact h.create hs
  | unlink d name directory ok =>
    obtain ⟨hd, hs⟩ := ite_none_right_eq_some.1 hs
    exact h.unlink hd hs
  | rename olddir oldname newdir newname i ok =>
    obtain ⟨hd, hs⟩ := ite_none_right_eq_some.1 hs
    exact h.rename hd.2 hs
  | release v max =>
    obtain ⟨-, rfl⟩ := of_guard hs
    exact h.release

end World
end Vex.Fs.Live
