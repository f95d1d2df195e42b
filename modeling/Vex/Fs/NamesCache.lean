import Vex.Fs.Names

/-! What a lookup finds. Every vnode in the cache is the vnode of the file that owns its number, and
a lookup returns the vnode of a file that its entry named while it ran, as long as no number changes
its owner under a call that relies on it. -/

namespace Vex.Fs.Names

open Vex.Lib Disk Option List

attribute [local simp] World.setNode Rename.nodes Frame.nodes Walk.nodes Task.nodes World.publish

/-! ## Volumes -/

namespace Disk

variable {d : Disk} {dir olddir newdir i j f : Nat} {name oldname newname : Name} {b : Bool}
  {e : DirEntry}

/-- Some entry leads to the file. -/
def Alive (d : Disk) (f : Nat) : Prop := ∃ e ∈ d.entries, d.owner e.ino = f

structure Tidy (d : Disk) : Prop where
  unique : ∀ {e e'}, e ∈ d.entries → e' ∈ d.entries → e.dir = e'.dir → e.name = e'.name → e = e'
  numbers : ∀ {e e'}, e ∈ d.entries → e' ∈ d.entries → d.owner e.ino = d.owner e'.ino →
    e.ino = e'.ino
  /-- On FAT the number is the place of the entry. -/
  single : d.driver = .fat → ∀ {e e'}, e ∈ d.entries → e' ∈ d.entries → e.ino = e'.ino → e = e'
  owned : ∀ {e}, e ∈ d.entries → d.owner e.ino < d.files

theorem inUse_iff : d.inUse i ↔ ∃ e ∈ d.entries, e.ino = i := by
  simp [inUse]

theorem find_eq_some (h : d.find dir name = some i) :
    ∃ e ∈ d.entries, e.dir = dir ∧ e.name = name ∧ e.ino = i := by
  obtain ⟨e, he, rfl⟩ := map_eq_some_iff.1 h
  have hp := find?_some he
  simp only [Bool.and_eq_true, beq_iff_eq] at hp
  exact ⟨e, mem_of_find?_eq_some he, hp.1, hp.2, rfl⟩

theorem find_eq_none (h : d.find dir name = none) (he : e ∈ d.entries) :
    ¬(e.dir = dir ∧ e.name = name) := by
  have := find?_eq_none.1 (map_eq_none_iff.1 h) e he
  simpa using this

theorem inUse_of_find (h : d.find dir name = some i) : d.inUse i := by
  obtain ⟨e, he, -, -, hi⟩ := find_eq_some h
  exact inUse_iff.2 ⟨e, he, hi⟩

theorem alive_of_inUse (h : d.inUse i) : d.Alive (d.owner i) := by
  obtain ⟨e, he, rfl⟩ := inUse_iff.1 h
  exact ⟨e, he, rfl⟩

theorem mem_create : e ∈ (d.create dir name i b).entries ↔ e = ⟨dir, name, i⟩ ∨ e ∈ d.entries := by
  simp [create]

theorem inUse_create : (d.create dir name i b).inUse j ↔ j = i ∨ d.inUse j := by
  simp only [inUse_iff, mem_create, or_and_right, exists_or, exists_eq_left, eq_comm (a := i)]

theorem owner_create (h : j ≠ i) : (d.create dir name i b).owner j = d.owner j := by
  simp [create, h]

theorem mem_remove :
    e ∈ (d.remove dir name).entries ↔ e ∈ d.entries ∧ ¬(e.dir = dir ∧ e.name = name) := by
  simp only [remove, mem_filter, Bool.not_eq_true', ← Bool.not_eq_true, Bool.and_eq_true,
    beq_iff_eq]

theorem create_spec (hi : ¬d.inUse i) (hd : d.create dir name i b = d') :
    (∀ {e}, e ∈ d.entries → e.ino ≠ i ∧ d'.owner e.ino = d.owner e.ino) ∧ d'.owner i = d.files ∧
      d'.driver = d.driver ∧ d'.files = d.files + 1 ∧
      ∀ {f}, f ≠ d.files → d'.isDir f = d.isDir f := by
  subst hd
  refine ⟨fun he => ?_, by simp [create], rfl, rfl, fun hf => by simp [create, hf]⟩
  have hne := fun hei => hi (inUse_iff.2 ⟨_, he, hei⟩)
  exact ⟨hne, owner_create hne⟩

theorem Tidy.create (h : d.Tidy) (hn : d.find dir name = none) (hi : ¬d.inUse i) :
    (d.create dir name i b).Tidy := by
  obtain ⟨hown, hnew, hdrv, hfiles, -⟩ := create_spec hi (Eq.refl (d.create dir name i b))
  have hkey := fun {e} => find_eq_none (e := e) hn
  cases h
  constructor <;> simp only [mem_create] <;> grind -ring -linarith

theorem Tidy.find (h : d.Tidy) (he : e ∈ d.entries) (hk : e.dir = dir ∧ e.name = name) :
    d.find dir name = some e.ino := by
  cases hf : d.find dir name with
  | none => exact absurd hk (find_eq_none hf he)
  | some i =>
    obtain ⟨e', he', hd, hn, rfl⟩ := find_eq_some hf
    rw [h.unique he he' (hk.1.trans hd.symm) (hk.2.trans hn.symm)]

theorem inUse_of_remove (hj : (d.remove dir name).inUse j) : d.inUse j := by
  obtain ⟨e, he, rfl⟩ := inUse_iff.1 hj
  exact inUse_iff.2 ⟨e, (mem_remove.1 he).1, rfl⟩

theorem Tidy.inUse_remove (h : d.Tidy) (hf : d.find dir name = some i) (hne : j ≠ i)
    (hj : d.inUse j) : (d.remove dir name).inUse j := by
  obtain ⟨e, he, rfl⟩ := inUse_iff.1 hj
  refine inUse_iff.2 ⟨e, mem_remove.2 ⟨he, fun hk => hne ?_⟩, rfl⟩
  exact some.inj ((h.find he hk).symm.trans hf)

theorem Tidy.remove (h : d.Tidy) : (d.remove dir name).Tidy :=
  ⟨fun he he' => h.unique (mem_remove.1 he).1 (mem_remove.1 he').1,
    fun he he' => h.numbers (mem_remove.1 he).1 (mem_remove.1 he').1,
    fun hd _ _ he he' => h.single hd (mem_remove.1 he).1 (mem_remove.1 he').1,
    fun he => h.owned (mem_remove.1 he).1⟩

theorem mem_rename : e ∈ (d.rename olddir oldname newdir newname i j).entries ↔
    e = ⟨newdir, newname, j⟩ ∨ e ∈ d.entries ∧ ¬(e.dir = olddir ∧ e.name = oldname) ∧
      ¬(e.dir = newdir ∧ e.name = newname) := by
  simp [rename, mem_remove, and_assoc]

theorem inUse_of_rename (hk : (d.rename olddir oldname newdir newname i j).inUse k) :
    k = j ∨ d.inUse k := by
  obtain ⟨e, he, rfl⟩ := inUse_iff.1 hk
  rcases mem_rename.1 he with rfl | ⟨he, -⟩
  · exact .inl rfl
  · exact .inr (inUse_iff.2 ⟨e, he, rfl⟩)

theorem owner_rename_self : (d.rename olddir oldname newdir newname i j).owner j = d.owner i := by
  simp [rename]

theorem owner_rename (hj : d.MayRenumber i j) (hk : d.inUse k) :
    (d.rename olddir oldname newdir newname i j).owner k = d.owner k := by
  by_cases hkj : k = j
  · subst hkj
    unfold MayRenumber at hj
    split at hj
    · simp [hj] at hk
    · rw [owner_rename_self, hj]
  · simp [rename, hkj]

theorem rename_spec (hj : d.MayRenumber i j)
    (hd : d.rename olddir oldname newdir newname i j = d') :
    (∀ {e}, e ∈ d.entries → d'.owner e.ino = d.owner e.ino) ∧ d'.owner j = d.owner i ∧
      d'.driver = d.driver ∧ d'.files = d.files ∧ d'.isDir = d.isDir := by
  subst hd
  exact ⟨fun he => owner_rename hj (inUse_iff.2 ⟨_, he, rfl⟩), owner_rename_self, rfl, rfl, rfl⟩

theorem Tidy.rename (h : d.Tidy) (hf : d.find olddir oldname = some i) (hj : d.MayRenumber i j) :
    (d.rename olddir oldname newdir newname i j).Tidy := by
  obtain ⟨e0, he0, hd, hn, hi⟩ := find_eq_some hf
  obtain ⟨hown, hsf, hdrv, hfiles, -⟩ :=
    rename_spec hj (Eq.refl (d.rename olddir oldname newdir newname i j))
  have hkeep : d.driver ≠ .fat → j = i := fun hfat => by simpa [MayRenumber, hfat] using hj
  cases h
  constructor <;> simp only [mem_rename] <;> grind -ring -linarith

end Disk

/-! ## What the calls rely on -/

/-- The number of the file that a call has found or made, but has no vnode in the cache for yet. -/
def Frame.pending : Frame → Option Nat
  | .read _ i | .missed _ i => some i
  | .filled _ x | .created x => some x.ino
  | _ => none

def Task.targets : Task → List Nat
  | .victim _ _ src => [src]
  | _ => []

/-- The vnodes whose number a call compares with an entry later. -/
def Frame.targets : Frame → List Nat
  | .asked w | .read w _ | .missed w _ | .filled w _ => w.task.targets
  | .found w v => v :: w.task.targets
  | .climbing r _ | .ready r => r.source :: r.victim.toList
  | _ => []

theorem Task.mem_nodes {k : Task} (h : v ∈ k.targets) : v ∈ k.nodes := by
  cases k <;> simp_all [targets, nodes]

theorem Frame.mem_nodes {fr : Frame} (h : v ∈ fr.targets) : v ∈ fr.nodes := by
  cases fr with
  | asked w | read w | missed w => exact mem_cons_of_mem _ (Task.mem_nodes h)
  | filled w x => exact mem_append_right _ (mem_cons_of_mem _ (Task.mem_nodes h))
  | found w u =>
    rcases mem_cons.1 h with rfl | h
    · exact mem_cons_self
    · exact mem_cons_of_mem _ (mem_cons_of_mem _ (Task.mem_nodes h))
  | climbing r | ready r =>
    rcases mem_cons.1 h with rfl | h
    · simp [nodes]
    · simp [nodes, mem_toList.1 h]
  | idle | created | moved => cases h

namespace World

variable {n : Nat} {s s' : World n} {t : Fin n} {v w i : Nat} {fr : Frame} {seen seen' : List Nat}

def Awaited (s : World n) (i : Nat) : Prop := ∃ t, (s.frame t).pending = some i

def Relied (s : World n) (i : Nat) : Prop :=
  s.Awaited i ∨ ∃ t, ∃ v ∈ (s.frame t).targets, s.ino v = i

/-- The number `i` keeps a name on the volume `d`, or no call waits to put its vnode into the
cache. -/
def Spared (s : World n) (d : Disk) (i : Nat) : Prop := d.inUse i ∨ ¬s.Awaited i

/-- The directory has a name, or is the root. One that lost it may be another directory by now: in
echfs a new one gets its id, in FAT its clusters. -/
def Listed (s : World n) (dir : Nat) : Prop := s.file dir = 0 ∨ s.disk.Alive (s.file dir)

def CalmUnlink (s : World n) (w : Walk) (v : Nat) : Prop :=
  match w.task with
  | .unlink _ => s.Spared (s.disk.remove (s.file w.dir) w.name) (s.ino v) ∧ s.Listed w.dir
  | _ => True

def CalmMove (s : World n) (r : Rename) (i : Nat) : Prop :=
  (∀ v ∈ r.victim, s.Spared (s.renamed r i) (s.ino v)) ∧
    (i ≠ s.ino r.source → ¬s.Awaited (s.ino r.source) ∧ ¬s.Relied i) ∧
    s.Listed r.olddir ∧ s.Listed r.newdir

/-- No number that a call relies on loses its last name or gets a file, only names other than `.`
and `..` are looked up, and the driver works in directories that have a name. -/
def Calm (s : World n) : Act n → Prop
  | .read t _ => match s.frame t with
    | .asked w => ¬isDots w.name ∧ s.Listed w.dir
    | _ => True
  | .create _ dir _ i _ => ¬s.Relied i ∧ s.Listed dir
  | .finish t => match s.frame t with
    | .found w v => s.CalmUnlink w v
    | _ => True
  | .move t i => match s.frame t with
    | .ready r => s.CalmMove r i
    | _ => True
  | _ => True

instance (s : World n) (i : Nat) : Decidable (s.Awaited i) :=
  inferInstanceAs (Decidable (Exists _))

instance (s : World n) (i : Nat) : Decidable (s.Relied i) :=
  inferInstanceAs (Decidable (_ ∨ Exists _))

instance (s : World n) (d : Disk) (i : Nat) : Decidable (s.Spared d i) :=
  inferInstanceAs (Decidable (_ ∨ _))

instance (s : World n) (dir : Nat) : Decidable (s.Listed dir) :=
  inferInstanceAs (Decidable (_ ∨ Exists _))

instance (s : World n) (w : Walk) (v : Nat) : Decidable (s.CalmUnlink w v) := by
  unfold CalmUnlink
  split <;> infer_instance

instance (s : World n) (r : Rename) (i : Nat) : Decidable (s.CalmMove r i) :=
  inferInstanceAs (Decidable (_ ∧ (_ → _) ∧ _))

instance (s : World n) (a : Act n) : Decidable (s.Calm a) := by
  unfold Calm
  split
  case h_1 | h_3 | h_4 => split <;> infer_instance
  all_goals infer_instance

/-! ## The invariant -/

/-- A vnode someone refers to is in the cache while its file has a name; the root never is. -/
def Known (s : World n) (v : Nat) : Prop :=
  v = 0 ∨ v < s.made ∧ (s.disk.Alive (s.file v) → v ∈ s.cached)

/-- A vnode other than the root whose number no other file has. -/
structure Certain (s : World n) (v : Nat) : Prop where
  ne_zero : v ≠ 0
  file : s.disk.inUse (s.ino v) → s.disk.owner (s.ino v) = s.file v

/-- What a call has established. -/
def Holds (s : World n) (seen : List Nat) : Frame → Prop
  | .read _ i | .missed _ i => s.disk.inUse i ∧ s.disk.owner i ∈ seen
  | .filled _ x => s.disk.inUse x.ino ∧ s.disk.owner x.ino = x.file ∧ x.file ∈ seen
  | .created x => s.disk.inUse x.ino ∧ s.disk.owner x.ino = x.file
  | .found _ v => s.file v ∈ seen
  | .ready r => r.victim ≠ some r.source
  | _ => True

structure FrameOk (s : World n) (fr : Frame) (seen : List Nat) : Prop where
  nodes : ∀ v ∈ fr.nodes, s.Known v
  targets : ∀ v ∈ fr.targets, s.Certain v
  holds : s.Holds seen fr

structure Sound (s : World n) : Prop where
  tidy : s.disk.Tidy
  made : 0 < s.made
  files : ∀ v < s.made, s.file v < s.disk.files
  cached : ∀ {v}, v ∈ s.cached → v ≠ 0 ∧ v < s.made
  key : ∀ {v w}, v ∈ s.cached → w ∈ s.cached → s.ino v = s.ino w → v = w
  current : ∀ {v}, v ∈ s.cached → s.disk.inUse (s.ino v) ∧ s.disk.owner (s.ino v) = s.file v
  held : ∀ v ∈ s.held, s.Known v
  parents : ∀ {v p}, v < s.made → (s.node v).parent = some p → s.Known p
  frames : ∀ t, s.FrameOk (s.frame t) (s.seen t)

/-- The file that a call's entry names now has been seen. -/
def Watched (s : World n) : Prop := ∀ t f, s.named (s.frame t) = some f → f ∈ s.seen t

theorem mem_of_cacheFind (h : s.cacheFind i = some v) : v ∈ s.cached ∧ s.ino v = i :=
  ⟨mem_of_find?_eq_some h, by simpa using find?_some h⟩

theorem ino_ne_of_cacheFind (h : s.cacheFind i = none) (hv : v ∈ s.cached) : s.ino v ≠ i := by
  simpa using find?_eq_none.1 h v hv

theorem Known.lt (h : s.Known v) (hs : s.Sound) : v < s.made := h.elim (· ▸ hs.made) And.left

theorem Sound.known (h : s.Sound) (hv : v ∈ s.cached) : s.Known v :=
  .inr ⟨(h.cached hv).2, fun _ => hv⟩

theorem Sound.certain (h : s.Sound) (hv : v ∈ s.cached) : s.Certain v :=
  ⟨(h.cached hv).1, fun _ => (h.current hv).2⟩

theorem Sound.ino_lt (h : s.Sound) (hi : s.disk.inUse i) : s.disk.owner i < s.disk.files := by
  obtain ⟨e, he, rfl⟩ := inUse_iff.1 hi
  exact h.tidy.owned he

/-- A call goes on in another world that agrees on what it relies on. -/
theorem FrameOk.transfer (h : s.FrameOk fr seen) (hkno : ∀ v ∈ fr.nodes, s'.Known v)
    (hfl : ∀ v ∈ fr.nodes, s'.file v = s.file v) (hcer : ∀ v ∈ fr.targets, s'.Certain v)
    (hpnd : ∀ i, fr.pending = some i → s.disk.inUse i →
      s'.disk.inUse i ∧ s'.disk.owner i = s.disk.owner i) (hsn : seen ⊆ seen') :
    s'.FrameOk fr seen' := by
  refine ⟨hkno, hcer, ?_⟩
  obtain ⟨-, -, h⟩ := h
  cases fr with
  | read w i | missed w i =>
    obtain ⟨hi, ho⟩ := hpnd i rfl h.1
    exact ⟨hi, ho ▸ hsn h.2⟩
  | filled w x =>
    obtain ⟨hi, ho⟩ := hpnd x.ino rfl h.1
    exact ⟨hi, ho.trans h.2.1, hsn h.2.2⟩
  | created x =>
    obtain ⟨hi, ho⟩ := hpnd x.ino rfl h.1
    exact ⟨hi, ho.trans h.2⟩
  | found w v =>
    rw [Holds, hfl v mem_cons_self]
    exact hsn h
  | idle | asked | climbing | ready | moved => exact h

theorem Sound.number_inj (h : s.Sound) (hi : s.disk.inUse i) (hj : s.disk.inUse j)
    (ho : s.disk.owner i = s.disk.owner j) : i = j := by
  obtain ⟨e, he, rfl⟩ := inUse_iff.1 hi
  obtain ⟨e', he', rfl⟩ := inUse_iff.1 hj
  exact h.tidy.numbers he he' ho

/-! ## Steps of one thread -/

theorem Sound.reframe (h : s.Sound) (hdk : s'.disk = s.disk) (hnd : s'.node = s.node)
    (hmd : s'.made = s.made) (hca : s'.cached = s.cached) (hheld : ∀ v ∈ s'.held, s.Known v)
    (hfrs : ∀ t, s.FrameOk (s'.frame t) (s'.seen t)) : s'.Sound := by
  obtain ⟨disk, node, made, cached, held, frame, renamer, seen⟩ := s'
  subst hdk hnd hmd hca
  exact ⟨h.tidy, h.made, h.files, h.cached, h.key, h.current, hheld, h.parents, fun t =>
    ⟨(hfrs t).nodes, fun v hv => ⟨((hfrs t).targets v hv).1, ((hfrs t).targets v hv).2⟩,
      (hfrs t).holds⟩⟩

theorem Sound.frames_update (h : s.Sound) (hfr : s.FrameOk fr seen) (t' : Fin n) :
    s.FrameOk (Function.update s.frame t fr t') (Function.update s.seen t seen t') := by
  by_cases ht : t' = t
  · subst ht
    simpa using hfr
  · simpa [ht] using h.frames t'

theorem Sound.setFrame (h : s.Sound) (hfr : s.FrameOk fr (s.seen t)) : (s.setFrame t fr).Sound :=
  h.reframe rfl rfl rfl rfl h.held fun t' => by
    have := h.frames_update (t := t) hfr t'
    rwa [Function.update_eq_self] at this

theorem frameOk_idle : s.FrameOk .idle seen :=
  ⟨by simp, by simp [Frame.targets], trivial⟩

theorem Sound.leave (h : s.Sound) (t : Fin n) : (s.leave t).Sound :=
  (h.setFrame (t := t) frameOk_idle).reframe rfl rfl rfl rfl h.held
    (h.setFrame (t := t) frameOk_idle).frames

theorem Sound.hold (h : s.Sound) (hv : s.Known v) : Sound { s with held := v :: s.held } :=
  h.reframe rfl rfl rfl rfl (by simpa using ⟨hv, h.held⟩) h.frames

theorem Sound.ask {w : Walk} (h : s.Sound) (hnds : ∀ v ∈ w.nodes, s.Known v)
    (htgt : ∀ v ∈ w.task.targets, s.Certain v) : (s.ask t w).Sound :=
  h.reframe rfl rfl rfl rfl h.held (h.frames_update ⟨hnds, htgt, trivial⟩)

section
variable {r : Rename} (hnds : ∀ v ∈ r.nodes, s.Known v)
  (htgt : ∀ v ∈ r.source :: r.victim.toList, s.Certain v)

include hnds htgt

theorem Sound.compare (h : s.Sound) : (s.compare t r).Sound := by
  unfold World.compare
  split
  case isTrue hv =>
    refine h.setFrame ⟨hnds, htgt, fun he => ?_⟩
    simp [he] at hv
  case isFalse => exact h.leave t

theorem frameOk_climbing (hit : ∀ u ∈ it, s.Known u) : s.FrameOk (.climbing r it) seen := by
  refine ⟨fun v hv => ?_, htgt, trivial⟩
  rcases mem_append.1 hv with hv | hv
  · exact hit v (mem_toList.1 hv)
  · exact hnds v hv

theorem Sound.check (h : s.Sound) : (s.check t r).Sound := by
  unfold World.check
  split
  · refine h.setFrame (frameOk_climbing hnds htgt fun u hu => hnds u ?_)
    obtain rfl : r.newdir = u := by simpa using hu
    simp
  · exact h.compare hnds htgt

end

section
variable (h : s.Sound)
include h

variable {w : Walk}

theorem Sound.missing (hnds : ∀ v ∈ w.nodes, s.Known v)
    (htgt : ∀ v ∈ w.task.targets, s.Certain v) : (s.missing t w).Sound := by
  unfold World.missing
  split
  case h_1 olddir oldname source hw =>
    refine h.check ?_ ?_
    · simp only [Walk.nodes, hw, Task.nodes, forall_mem_cons] at hnds
      simpa using ⟨hnds.2.1, hnds.2.2.1, hnds.1⟩
    · simpa [hw, Task.targets] using htgt
  case h_2 => exact h.leave t

theorem Sound.readStep (hwatch : s.Watched) (hfr : s.frame t = .asked w) (hdots : ¬isDots w.name) :
    (s.readStep t w dots).Sound := by
  obtain ⟨hnds, htgt, -⟩ := hfr ▸ h.frames t
  unfold World.readStep
  rw [if_neg hdots]
  split
  case h_1 i hi =>
    refine h.setFrame ⟨hnds, htgt, inUse_of_find hi, hwatch t _ ?_⟩
    simp [named, hfr, Frame.walk, hi]
  case h_2 => exact h.missing hnds htgt

theorem Sound.file_of_cacheFind (hf : s.cacheFind i = some v) :
    s.file v = s.disk.owner i := by
  obtain ⟨hv, rfl⟩ := mem_of_cacheFind hf
  exact (h.current hv).2.symm

theorem Sound.found (hv : v ∈ s.cached) (hfl : s.file v ∈ seen)
    (hnds : ∀ v ∈ w.nodes, s.Known v) (htgt : ∀ v ∈ w.task.targets, s.Certain v) :
    s.FrameOk (.found w v) seen :=
  ⟨forall_mem_cons.2 ⟨h.known hv, hnds⟩, forall_mem_cons.2 ⟨h.certain hv, htgt⟩, hfl⟩

theorem Sound.getStep (hfr : s.frame t = .read w i) :
    (s.getStep t w i).Sound := by
  obtain ⟨hnds, htgt, hi, hsn⟩ := hfr ▸ h.frames t
  unfold World.getStep
  split
  case h_1 v hv =>
    refine h.setFrame (h.found (mem_of_cacheFind hv).1 ?_ hnds htgt)
    rw [h.file_of_cacheFind hv]
    exact hsn
  case h_2 => exact h.setFrame ⟨hnds, htgt, hi, hsn⟩

theorem Sound.fillStep (hfr : s.frame t = .missed w i) :
    (s.fillStep t w i).Sound := by
  obtain ⟨hnds, htgt, hi, hsn⟩ := hfr ▸ h.frames t
  rw [World.fillStep, if_pos (.inl hi)]
  refine h.setFrame ⟨fun v hv => ?_, htgt, hi, rfl, hsn⟩
  rcases mem_append.1 hv with hv | hv
  · obtain ⟨-, rfl⟩ : s.disk.isDir (s.disk.owner i) = true ∧ w.dir = v := by
      simpa [fillNode] using hv
    exact hnds w.dir mem_cons_self
  · exact hnds v hv

theorem Sound.climbStep (hfr : s.frame t = .climbing r it) : (s.climbStep t r it).Sound := by
  have hok := h.frames t
  rw [hfr] at hok
  obtain ⟨hnds, htgt, -⟩ := hok
  have hr : ∀ v ∈ r.nodes, s.Known v := fun v hv => hnds v (mem_append_right _ hv)
  cases it with
  | none => exact h.compare hr htgt
  | some u =>
    rw [World.climbStep]
    split
    · exact h.leave t
    · have hu : s.Known u := hnds u (by simp)
      exact h.setFrame (frameOk_climbing hr htgt fun p hp => h.parents (hu.lt h) hp)

/-! ## Steps that make and destroy vnodes -/

omit h in
theorem publish_spec (s : World n) (x : Vnode) : (s.publish x).node s.made = x ∧
    (∀ {v}, v < s.made → (s.publish x).node v = s.node v) ∧
      ∀ {v}, v < s.made → (s.publish x).file v = s.file v := by
  have hne : ∀ {v}, v < s.made → (s.publish x).node v = s.node v := fun hv => by
    simp [Nat.ne_of_lt hv]
  exact ⟨by simp, hne, fun hv => congrArg Vnode.file (hne hv)⟩

theorem Sound.publish (hi : s.disk.inUse x.ino) (ho : s.disk.owner x.ino = x.file)
    (hp : ∀ p ∈ x.parent, s.Known p) (hf : s.cacheFind x.ino = none) : (s.publish x).Sound := by
  obtain ⟨hsf, hne, hfl⟩ := publish_spec s x
  have hca : ∀ {v}, v ∈ (s.publish x).cached ↔ v = s.made ∨ v ∈ s.cached := by
    simp
  have hkno : ∀ {v}, s.Known v → (s.publish x).Known v := by
    rintro v (rfl | ⟨hv, ha⟩)
    · exact .inl rfl
    · refine .inr ⟨Nat.lt_succ_of_lt hv, fun halv => hca.2 (.inr (ha ?_))⟩
      rwa [World.file, hne hv] at halv
  have hino : ∀ {v}, v < s.made → (s.publish x).ino v = s.ino v :=
    fun hv => congrArg Vnode.ino (hne hv)
  have hfree := fun {v} => ino_ne_of_cacheFind (v := v) hf
  have hlt := fun {v} hv => (h.cached (v := v) hv).2
  refine ⟨h.tidy, Nat.succ_pos _, fun v hv => ?_, fun {v} hv => ?_, fun {v w} hv hw => ?_,
    fun {v} hv => ?_, fun v hv => hkno (h.held v hv), fun {v p} hv hpar => ?_, fun t => ?_⟩
  · rcases Nat.lt_succ_iff_lt_or_eq.1 hv with hv | rfl
    · rw [hfl hv]
      exact h.files v hv
    · rw [World.file, hsf, ← ho]
      exact h.ino_lt hi
  · rcases hca.1 hv with rfl | hv
    · exact ⟨Nat.ne_of_gt h.made, Nat.lt_succ_self _⟩
    · exact ⟨(h.cached hv).1, Nat.lt_succ_of_lt (hlt hv)⟩
  · rcases hca.1 hv with rfl | hv <;> rcases hca.1 hw with rfl | hw
    · exact fun _ => rfl
    · rw [hino (hlt hw), World.ino, hsf]
      exact fun he => absurd he.symm (hfree hw)
    · rw [hino (hlt hv), World.ino, World.ino, hsf]
      exact fun he => absurd he (hfree hv)
    · rw [hino (hlt hv), hino (hlt hw)]
      exact h.key hv hw
  · rcases hca.1 hv with rfl | hv
    · rw [World.ino, World.file, hsf]
      exact ⟨hi, ho⟩
    · rw [hino (hlt hv), hfl (hlt hv)]
      exact h.current hv
  · rcases Nat.lt_succ_iff_lt_or_eq.1 hv with hv | rfl
    · rw [hne hv] at hpar
      exact hkno (h.parents hv hpar)
    · rw [hsf] at hpar
      exact hkno (hp p hpar)
  · obtain ⟨hnds, htgt, -⟩ := h.frames t
    refine (h.frames t).transfer (fun v hv => hkno (hnds v hv))
      (fun v hv => hfl ((hnds v hv).lt h)) (fun v hv => ?_) (fun i _ hi => ⟨hi, rfl⟩)
      (List.Subset.refl _)
    have hv' := (hnds v (Frame.mem_nodes hv)).lt h
    refine ⟨(htgt v hv).ne_zero, ?_⟩
    rw [hino hv', hfl hv']
    exact (htgt v hv).file

theorem Sound.live (hv : s.Referenced v) : s.Known v := by
  obtain hv | ⟨t, hv⟩ | ⟨w, hw, hv⟩ := hv
  · exact h.held v hv
  · exact (h.frames t).nodes v hv
  · exact h.parents hw hv

end

/-- No vnode is made, and each keeps its file. -/
structure Keeps (s s' : World n) : Prop where
  made : s'.made = s.made
  held : s'.held = s.held
  frame : s'.frame = s.frame
  renamer : s'.renamer = s.renamer
  seen : s'.seen = s.seen
  file : ∀ v, s'.file v = s.file v
  cached : ∀ {v}, v ∈ s'.cached → v ∈ s.cached
  parents : ∀ {v p}, v < s.made → (s'.node v).parent = some p → s.Referenced p

/-- What a step that makes no vnode has to keep. -/
theorem Sound.change (h : s.Sound) (hk : Keeps s s') (hty : s'.disk.Tidy)
    (hfiles : s.disk.files ≤ s'.disk.files)
    (hkey : ∀ {v w}, v ∈ s'.cached → w ∈ s'.cached → s'.ino v = s'.ino w → v = w)
    (hcurrent : ∀ {v}, v ∈ s'.cached →
      s'.disk.inUse (s'.ino v) ∧ s'.disk.owner (s'.ino v) = s.file v)
    (hlive : ∀ {v}, s.Referenced v → v < s.made → s'.disk.Alive (s.file v) →
      s.disk.Alive (s.file v) ∧ (v ∈ s.cached → v ∈ s'.cached))
    (hcer : ∀ {t v}, v ∈ (s.frame t).targets → s.Certain v → s'.disk.inUse (s'.ino v) →
      s'.disk.owner (s'.ino v) = s.file v)
    (hpnd : ∀ {t i}, (s.frame t).pending = some i → s.disk.inUse i →
      s'.disk.inUse i ∧ s'.disk.owner i = s.disk.owner i) : s'.Sound := by
  have hkno : ∀ {v}, s.Referenced v → s'.Known v := by
    intro v hv
    rcases h.live hv with rfl | ⟨hlt, ha⟩
    · exact .inl rfl
    refine .inr ⟨hk.made ▸ hlt, fun halv => ?_⟩
    obtain ⟨halive', hc⟩ := hlive hv hlt (hk.file v ▸ halv)
    exact hc (ha halive')
  refine ⟨hty, hk.made ▸ h.made, fun v hv => ?_, fun {v} hv => ?_, hkey, fun {v} hv => ?_,
    fun v hv => hkno (.inl (hk.held ▸ hv)), fun {v p} hv hp => ?_, fun t => ?_⟩
  · rw [hk.file]
    exact Nat.lt_of_lt_of_le (h.files v (hk.made ▸ hv)) hfiles
  · rw [hk.made]
    exact h.cached (hk.cached hv)
  · rw [hk.file]
    exact hcurrent hv
  · exact hkno (hk.parents (hk.made ▸ hv) hp)
  rw [hk.frame, hk.seen]
  refine (h.frames t).transfer (fun v hv => hkno (.inr (.inl ⟨t, hv⟩))) (fun v _ => hk.file v)
    (fun v hv => ⟨((h.frames t).targets v hv).ne_zero, fun hu => ?_⟩) (fun i => hpnd)
    (List.Subset.refl _)
  rw [hk.file]
  exact hcer hv ((h.frames t).targets v hv) hu

section
variable {x : Vnode} (hfl : x.file = s.file v)
include hfl

theorem file_setNode (w : Nat) : (s.setNode v x).file w = s.file w := by
  by_cases hw : w = v
  · simp [World.file, hw, hfl]
  · simp [World.file, hw]

end

theorem ino_setNode (x : Vnode) (w : Nat) :
    (s.setNode v x).ino w = if w = v then x.ino else s.ino w := by
  by_cases hw : w = v <;> simp [World.ino, hw]

theorem parent_setNode (x : Vnode) (w : Nat) :
    ((s.setNode v x).node w).parent = if w = v then x.parent else (s.node w).parent := by
  by_cases hw : w = v <;> simp [hw]

theorem Sound.uncache (h : s.Sound) (hr : ¬s.Referenced v) : (s.uncache v).Sound := by
  have hca : ∀ {w}, w ∈ (s.uncache v).cached ↔ w ∈ s.cached ∧ w ≠ v := by simp [World.uncache]
  exact h.change ⟨rfl, rfl, rfl, rfl, rfl, fun _ => rfl, fun hw => (hca.1 hw).1,
      fun hw hp => .inr (.inr ⟨_, hw, hp⟩)⟩ h.tidy (Nat.le_refl _)
    (fun hw hx => h.key (hca.1 hw).1 (hca.1 hx).1) (fun hw => h.current (hca.1 hw).1)
    (fun hw _ ha => ⟨ha, fun hc => hca.2 ⟨hc, fun he => hr (he ▸ hw)⟩⟩)
    (fun _ hw => hw.file) fun _ hi => ⟨hi, rfl⟩

theorem Sound.setParent {p : Option Nat} (h : s.Sound) (hp : ∀ {q}, p = some q → s.Referenced q) :
    (s.setNode v { s.node v with parent := p }).Sound := by
  have hino : ∀ w, (s.setNode v { s.node v with parent := p }).ino w = s.ino w := fun w => by
    rw [ino_setNode]
    split
    case isTrue hw => rw [hw]; rfl
    case isFalse => rfl
  refine h.change ⟨rfl, rfl, rfl, rfl, rfl, file_setNode rfl, id, ?_⟩ h.tidy (Nat.le_refl _) ?_ ?_
    (fun _ _ ha => ⟨ha, id⟩) ?_ fun _ hi => ⟨hi, rfl⟩
  · intro w q hw hq
    rw [parent_setNode] at hq
    split at hq
    · exact hp hq
    · exact .inr (.inr ⟨w, hw, hq⟩)
  · intro w x hw hx he
    rw [hino, hino] at he
    exact h.key hw hx he
  · intro w hw
    rw [hino]
    exact h.current hw
  · intro t w _ hw
    rw [hino]
    exact hw.file

theorem Sound.freeStep (h : s.Sound) (hr : ¬s.Referenced v) : (s.freeStep v).Sound :=
  (h.uncache hr).setParent nofun

/-! ## Steps that change the volume -/

theorem keeps_disk (s : World n) (d : Disk) : Keeps s { s with disk := d } :=
  ⟨rfl, rfl, rfl, rfl, rfl, fun _ => rfl, id, fun hv hp => .inr (.inr ⟨_, hv, hp⟩)⟩

variable {name : Name}

theorem Sound.createDisk (directory : Bool) (h : s.Sound) (hn : s.disk.find dir name = none)
    (hi : ¬s.disk.inUse i) (hcm : ¬s.Relied i) :
    Sound { s with disk := s.disk.create dir name i directory } := by
  have hkeep : ∀ {j}, s.disk.inUse j → (s.disk.create dir name i directory).inUse j ∧
      (s.disk.create dir name i directory).owner j = s.disk.owner j :=
    fun hj => ⟨inUse_create.2 (.inr hj), owner_create fun he => hi (he ▸ hj)⟩
  refine h.change (keeps_disk ..) (h.tidy.create hn hi) (Nat.le_succ _) h.key ?_ ?_ ?_
    fun _ hj => hkeep hj
  · intro v hv
    obtain ⟨hi', ho⟩ := hkeep (h.current hv).1
    exact ⟨hi', ho.trans (h.current hv).2⟩
  · rintro v - hv ⟨e, he, ho⟩
    refine ⟨?_, id⟩
    rcases mem_create.1 he with rfl | he
    · have := h.files v hv
      simp [Disk.create, ← ho] at this
    · exact ⟨e, he, (hkeep (inUse_iff.2 ⟨e, he, rfl⟩)).2 ▸ ho⟩
  · intro t v hv hc hu
    rcases inUse_create.1 hu with he | hu
    · exact absurd (.inr ⟨t, v, hv, he⟩) hcm
    · exact (hkeep hu).2.trans (hc.file hu)

theorem Sound.createStep (h : s.Sound) (hd : dir ∈ s.held)
    (hn : s.disk.find (s.file dir) name = none) (hi : ¬s.disk.inUse i) (hcm : ¬s.Relied i) :
    (s.createStep t dir name i directory).Sound := by
  have h1 := h.createDisk directory hn hi hcm
  refine h1.setFrame ⟨fun w hw => ?_, by simp [Frame.targets], inUse_create.2 (.inl rfl), ?_⟩
  · obtain ⟨-, rfl⟩ : directory = true ∧ dir = w := by
      simpa using hw
    exact h1.held _ hd
  · simp [Disk.create]

theorem mem_forget :
    w ∈ (s.forget v).cached ↔ w ∈ s.cached ∧ (w = v → s.disk.inUse (s.ino v)) := by
  unfold forget
  split
  case isTrue h => simp [h]
  case isFalse h => simp [uncache, h]

theorem forget_eq (s : World n) (v : Nat) : ∃ c, s.forget v = { s with cached := c } := by
  unfold forget
  split
  · exact ⟨_, rfl⟩
  · exact ⟨_, rfl⟩

@[simp] theorem forget_disk : (s.forget v).disk = s.disk := by
  obtain ⟨c, hc⟩ := forget_eq s v
  rw [hc]

@[simp] theorem forget_ino : (s.forget v).ino w = s.ino w := by
  obtain ⟨c, hc⟩ := forget_eq s v
  rw [hc]
  rfl

theorem keeps_forget (s : World n) (d : Disk) (v : Nat) :
    Keeps s ({ s with disk := d }.forget v) := by
  have hca := fun {w} => (mem_forget (s := { s with disk := d }) (v := v) (w := w)).1
  obtain ⟨c, hc⟩ := forget_eq { s with disk := d } v
  rw [hc] at hca ⊢
  exact ⟨rfl, rfl, rfl, rfl, rfl, fun _ => rfl, fun hw => (hca hw).1,
    fun hv hp => .inr (.inr ⟨_, hv, hp⟩)⟩

theorem Certain.cached (hc : s.Certain v) (hk : s.Known v) (hi : s.disk.inUse (s.ino v)) :
    v ∈ s.cached := by
  obtain rfl | ⟨-, ha⟩ := hk
  · exact absurd rfl hc.ne_zero
  · exact ha (hc.file hi ▸ alive_of_inUse hi)

theorem Sound.unlinkDisk (h : s.Sound) (hk : s.Known v) (hc : s.Certain v)
    (hf : s.disk.find dir name = some (s.ino v))
    (hcm : s.Spared (s.disk.remove dir name) (s.ino v)) :
    ({ s with disk := s.disk.remove dir name }.forget v).Sound := by
  have hin := inUse_of_find hf
  refine h.change (keeps_forget ..) ?_ ?_ ?_ ?_ ?_ ?_ ?_ <;>
    simp only [forget_disk, forget_ino, mem_forget]
  · exact h.tidy.remove
  · exact Nat.le_refl _
  · exact fun hw hx => h.key hw.1 hx.1
  · rintro w ⟨hw, hwv⟩
    refine ⟨?_, (h.current hw).2⟩
    by_cases he : s.ino w = s.ino v
    · obtain rfl := h.key hw (hc.cached hk hin) he
      exact hwv rfl
    · exact h.tidy.inUse_remove hf he (h.current hw).1
  · rintro w - - ⟨e, he, ho⟩
    have he' := (mem_remove.1 he).1
    refine ⟨⟨e, he', ho⟩, fun hw => ⟨hw, ?_⟩⟩
    rintro rfl
    -- The file still has a name, and that has the same number.
    obtain ⟨e0, he0, -, -, hi0⟩ := find_eq_some hf
    refine inUse_iff.2 ⟨e, he, h.tidy.numbers he' he0 (ho.trans ?_) |>.trans hi0⟩
    rw [hi0, hc.file hin]
  · exact fun _ hcw hu => hcw.file (inUse_of_remove hu)
  intro t j hp hj
  refine ⟨?_, rfl⟩
  by_cases he : j = s.ino v
  · exact hcm.elim (he ▸ ·) fun hn => absurd ⟨t, he ▸ hp⟩ hn
  · exact h.tidy.inUse_remove hf he hj

section
variable {r : Rename}

theorem mem_moveEntry : w ∈ (s.moveEntry r i).cached ↔
    w ∈ s.cached ∧ (r.victim = some w → (s.renamed r i).inUse (s.ino w)) := by
  unfold moveEntry forgetVictim
  split
  case h_1 he => simp [he]
  case h_2 v he =>
    refine mem_forget.trans (and_congr_right fun _ => ?_)
    simp only [he, some.injEq, eq_comm]
    constructor <;> exact fun h hw => hw ▸ h hw

theorem moveEntry_eq (s : World n) (r : Rename) (i : Nat) : ∃ c, s.moveEntry r i =
    ({ s with disk := s.renamed r i, cached := c }.setNode r.source
      { s.node r.source with ino := i }) := by
  unfold moveEntry forgetVictim
  split
  · exact ⟨_, rfl⟩
  obtain ⟨c, hc⟩ := forget_eq { s with disk := s.renamed r i } _
  rw [hc]
  exact ⟨_, rfl⟩

@[simp] theorem moveEntry_disk : (s.moveEntry r i).disk = s.renamed r i := by
  obtain ⟨c, hc⟩ := moveEntry_eq s r i
  rw [hc]
  rfl

@[simp] theorem moveEntry_ino :
    (s.moveEntry r i).ino w = if w = r.source then i else s.ino w := by
  obtain ⟨c, hc⟩ := moveEntry_eq s r i
  rw [hc, ino_setNode]
  rfl

theorem keeps_moveEntry (s : World n) (r : Rename) (i : Nat) : Keeps s (s.moveEntry r i) := by
  have hca := fun {w} => (mem_moveEntry (s := s) (r := r) (i := i) (w := w)).1
  obtain ⟨c, hc⟩ := moveEntry_eq s r i
  rw [hc] at hca ⊢
  refine ⟨rfl, rfl, rfl, rfl, rfl, file_setNode rfl, fun hw => (hca hw).1,
    fun {v p} hv hp => ?_⟩
  rw [parent_setNode] at hp
  split at hp
  case isTrue hvs => exact .inr (.inr ⟨v, hv, hvs ▸ hp⟩)
  case isFalse => exact .inr (.inr ⟨v, hv, hp⟩)

/-- Only the numbers of source and victim can lose their last name. -/
theorem Sound.renamed_inUse (h : s.Sound) (hm : s.MayMove r i) (hj : s.disk.inUse j)
    (hs : j ≠ s.ino r.source) (hv : ∀ v ∈ r.victim, j ≠ s.ino v) : (s.renamed r i).inUse j := by
  obtain ⟨e, he, rfl⟩ := inUse_iff.1 hj
  refine inUse_iff.2 ⟨e, mem_rename.2 (.inr ⟨he, fun hk => hs ?_, fun hk => ?_⟩), rfl⟩
  · exact some.inj ((h.tidy.find he hk).symm.trans hm.1)
  · obtain ⟨v, hv', hi⟩ := map_eq_some_iff.1 (hm.2.1.symm.trans (h.tidy.find he hk))
    exact hv v hv' hi.symm

theorem Sound.moveEntry (h : s.Sound) (hfr : s.frame t = .ready r) (hm : s.MayMove r i)
    (hcm : s.CalmMove r i) : (s.moveEntry r i).Sound := by
  obtain ⟨hnds, htgt, hne⟩ := hfr ▸ h.frames t
  have hsrc : s.Certain r.source := htgt _ mem_cons_self
  have hin := inUse_of_find hm.1
  have hcs : r.source ∈ s.cached := hsrc.cached (hnds _ (by simp)) hin
  have hvic : ∀ v ∈ r.victim, s.Certain v ∧ s.disk.inUse (s.ino v) ∧ v ∈ s.cached := by
    intro v hv
    have hc : s.Certain v := htgt v (mem_cons_of_mem _ (mem_toList.2 hv))
    have hu : s.disk.inUse (s.ino v) :=
      inUse_of_find (hm.2.1.trans (congrArg (Option.map s.ino) hv))
    exact ⟨hc, hu, hc.cached (hnds v (by simp_all)) hu⟩
  have hown : ∀ {j}, s.disk.inUse j → (s.renamed r i).owner j = s.disk.owner j :=
    fun hj => owner_rename hm.2.2.2 hj
  have hsf : (s.renamed r i).owner i = s.file r.source := owner_rename_self.trans (hsrc.file hin)
  have hnew : (s.renamed r i).inUse i := inUse_iff.2 ⟨_, mem_rename.2 (.inl rfl), rfl⟩
  have hold : ∀ {w}, w ∈ s.cached → s.ino w = i → w = r.source := by
    intro w hw hwi
    refine h.key hw hcs (hwi.trans ?_)
    have hr := hm.2.2.2
    unfold Disk.MayRenumber at hr
    split at hr
    · simp [← hwi, (h.current hw).1] at hr
    · exact hr
  refine h.change (keeps_moveEntry s r i) ?_ ?_ ?_ ?_ ?_ ?_ ?_ <;>
    simp only [moveEntry_disk, moveEntry_ino, mem_moveEntry]
  · exact h.tidy.rename hm.1 hm.2.2.2
  · exact Nat.le_refl _
  · intro v w hv hw he
    by_cases hvs : v = r.source <;> by_cases hws : w = r.source
    · rw [hvs, hws]
    · rw [if_pos hvs, if_neg hws] at he
      exact absurd (hold hw.1 he.symm) hws
    · rw [if_neg hvs, if_pos hws] at he
      exact absurd (hold hv.1 he) hvs
    · rw [if_neg hvs, if_neg hws] at he
      exact h.key hv.1 hw.1 he
  · rintro w ⟨hw, hwv⟩
    by_cases hws : w = r.source
    · rw [if_pos hws, hws]
      exact ⟨hnew, hsf⟩
    rw [if_neg hws]
    obtain ⟨hu, ho⟩ := h.current hw
    refine ⟨?_, (hown hu).trans ho⟩
    by_cases hv : r.victim = some w
    · exact hwv hv
    refine h.renamed_inUse hm hu (fun he => hws (h.key hw hcs he)) fun v hv' he => hv ?_
    rw [h.key hw (hvic v hv').2.2 he]
    exact hv'
  · rintro v - - ⟨e, he, ho⟩
    rcases mem_rename.1 he with rfl | ⟨he', -⟩
    · have hfl : s.file r.source = s.file v := hsf.symm.trans ho
      refine ⟨hfl ▸ hsrc.file hin ▸ alive_of_inUse hin, fun hv => ⟨hv, fun hvv => ?_⟩⟩
      -- Then source and victim would be the same vnode.
      have hio := h.number_inj hin (h.current hv).1
        ((hsrc.file hin).trans (hfl.trans (h.current hv).2.symm))
      exact absurd (h.key hcs hv hio ▸ hvv) hne
    · have hu : s.disk.inUse e.ino := inUse_iff.2 ⟨e, he', rfl⟩
      rw [hown hu] at ho
      refine ⟨⟨e, he', ho⟩, fun hv => ⟨hv, fun _ => inUse_iff.2 ⟨e, he, ?_⟩⟩⟩
      exact h.number_inj hu (h.current hv).1 (ho.trans (h.current hv).2.symm)
  · intro t' v hv hc hu
    by_cases hvs : v = r.source
    · rw [if_pos hvs, hvs]
      exact hsf
    rw [if_neg hvs] at hu ⊢
    have hu' : s.disk.inUse (s.ino v) := by
      rcases inUse_of_rename hu with he | hu
      · by_cases his : i = s.ino r.source
        · rwa [he, his]
        · exact absurd (.inr ⟨t', v, hv, he⟩) (hcm.2.1 his).2
      · exact hu
    exact (hown hu').trans (hc.file hu')
  · intro t' j hp hj
    refine ⟨?_, hown hj⟩
    by_cases hjs : j = s.ino r.source
    · by_cases his : i = s.ino r.source
      · rwa [hjs, ← his]
      · exact absurd ⟨t', hjs ▸ hp⟩ (hcm.2.1 his).1
    · by_cases hjv : ∃ v ∈ r.victim, j = s.ino v
      · obtain ⟨v, hv, rfl⟩ := hjv
        exact (hcm.1 v hv).resolve_right fun hn => hn ⟨t', hp⟩
      · exact h.renamed_inUse hm hj hjs fun v hv he => hjv ⟨v, hv, he⟩

end

theorem Sound.moveStep (h : s.Sound) (hfr : s.frame t = .ready r) (hm : s.MayMove r i)
    (hcm : s.CalmMove r i) : (s.moveStep t r i).Sound := by
  have h1 := h.moveEntry hfr hm hcm
  unfold World.moveStep
  split
  · refine h1.setFrame ⟨fun v hv => h1.live (.inr (.inl ⟨t, ?_⟩)), by simp [Frame.targets], trivial⟩
    rw [(keeps_moveEntry s r i).frame, hfr]
    have hv : v = r.source ∨ v = r.newdir := by simpa using hv
    rcases hv with rfl | rfl <;> simp
  · exact h1.leave t

theorem Sound.finishStep {w : Walk} (h : s.Sound) (hfr : s.frame t = .found w v)
    (hcm : s.CalmUnlink w v) (hn : s.finishStep t w v = some s') : s'.Sound := by
  obtain ⟨hnds, htgt, -⟩ := hfr ▸ h.frames t
  have hv : s.Known v := hnds v mem_cons_self
  have hc : s.Certain v := htgt v mem_cons_self
  have hw : ∀ u ∈ w.nodes, s.Known u := fun u hu => hnds u (mem_cons_of_mem _ hu)
  obtain ⟨task, dir, name⟩ := w
  cases task with
  | lookup =>
    cases hn
    exact (h.leave t).hold hv
  | unlink directory =>
    obtain ⟨hm, ⟨⟩⟩ := ite_none_right_eq_some.1 hn
    exact (h.unlinkDisk hv hc hm.2.1 hcm.1).leave t
  | source newdir newname =>
    cases hn
    have hdir : s.Known dir ∧ s.Known newdir := by simpa using hw
    refine h.ask ?_ ?_
    · simpa using ⟨hdir.2, hdir.1, hv⟩
    · simpa [Task.targets] using hc
  | victim olddir oldname source =>
    cases hn
    have hdir : s.Known dir ∧ s.Known olddir ∧ s.Known source := by
      simpa using hw
    have hs : s.Certain source := htgt source (by simp [Frame.targets, Task.targets])
    refine h.check ?_ ?_
    · simpa using ⟨hdir.2.1, hdir.2.2, hdir.1, hv⟩
    · simpa using ⟨hs, hc⟩

theorem Sound.insertFilled {w : Walk} (h : s.Sound) (hfr : s.frame t = .filled w x) :
    (s.insertFilled t w x).Sound := by
  obtain ⟨hnds, htgt, hi, ho, hsn⟩ := hfr ▸ h.frames t
  have hw : ∀ u ∈ w.nodes, s.Known u := fun u hu => hnds u (mem_append_right _ hu)
  unfold World.insertFilled
  split
  case h_1 v hv =>
    refine h.setFrame (h.found (mem_of_cacheFind hv).1 ?_ hw htgt)
    rw [h.file_of_cacheFind hv, ho]
    exact hsn
  rename_i hf
  have h1 := h.publish hi ho
    (fun p hp => hnds p (mem_append_left _ (mem_toList.2 hp))) hf
  have hfr1 : (s.publish x).frame t = .filled w x := hfr
  obtain ⟨hnodes1, htargets1, -⟩ := hfr1 ▸ h1.frames t
  refine h1.setFrame (h1.found mem_cons_self ?_
    (fun u hu => hnodes1 u (mem_append_right _ hu)) htargets1)
  simpa [World.file] using hsn

theorem Sound.insertCreated (h : s.Sound) (hfr : s.frame t = .created x) :
    (s.insertCreated t x).Sound := by
  obtain ⟨hnds, -, hi, ho⟩ := hfr ▸ h.frames t
  unfold World.insertCreated
  split
  case h_1 v hv => exact (h.leave t).hold (h.known (mem_of_cacheFind hv).1)
  case h_2 hf =>
    have h1 := h.publish hi ho (fun p hp => hnds p (mem_toList.2 hp)) hf
    exact (h1.leave t).hold (h1.known mem_cons_self)

theorem Sound.next (h : s.Sound) (hwatch : s.Watched) (hcm : s.Calm a) (hn : s.Next a s') :
    s'.Sound := by
  cases hn with
  | root => exact h.hold (.inl rfl)
  | decref hv =>
    exact h.reframe rfl rfl rfl rfl (fun w hw => h.held w (mem_of_mem_erase hw)) h.frames
  | free hv hr => exact h.freeStep hr
  | lookup hfr hd | unlink hfr hd =>
    exact h.ask (by simpa using h.held _ hd) (by simp [Task.targets])
  | @rename t olddir newdir oldname newname hfr ho hd =>
    have h1 := h.ask (t := t) (w := ⟨.source newdir newname, olddir, oldname⟩)
      (by simpa using ⟨h.held olddir ho, h.held newdir hd⟩)
      (by simp [Task.targets])
    exact h1.reframe rfl rfl rfl rfl h1.held h1.frames
  | create hfr hd hdir hf hi => exact h.createStep hd hf hi hcm.1
  | read hfr =>
    simp only [Calm, hfr] at hcm
    exact h.readStep hwatch hfr hcm.1
  | get hfr => exact h.getStep hfr
  | fill hfr => exact h.fillStep hfr
  | insertFilled hfr => exact h.insertFilled hfr
  | insertCreated hfr => exact h.insertCreated hfr
  | finish hfr hs =>
    simp only [Calm, hfr] at hcm
    exact h.finishStep hfr hcm hs
  | climb hfr => exact h.climbStep hfr
  | move hfr hm =>
    simp only [Calm, hfr] at hcm
    exact h.moveStep hfr hm hcm
  | @setParent t source newdir hfr =>
    exact (h.setParent (by rintro _ ⟨⟩; exact .inr (.inl ⟨t, by simp [hfr]⟩))).leave t
  | @abort t => exact h.leave t

theorem Sound.observe (h : s.Sound) : s.observe.Sound := by
  refine h.reframe rfl rfl rfl rfl h.held fun t => ?_
  exact (h.frames t).transfer (h.frames t).nodes (fun _ _ => rfl) (h.frames t).targets
    (fun _ _ hi => ⟨hi, rfl⟩) (subset_append_right _ _)

theorem watched_observe (s : World n) : s.observe.Watched :=
  fun _ _ hf => mem_append_left _ (mem_toList.2 hf)

theorem Sound.step (h : s.Sound ∧ s.Watched) (hs : Under Calm (Advances World.step) s a s') :
    s'.Sound ∧ s'.Watched := by
  obtain ⟨s1, hn, rfl⟩ := map_eq_some_iff.1 hs.2
  exact ⟨(h.1.next h.2 hs.1 (next_cases hn)).observe, watched_observe s1⟩

end World
end Vex.Fs.Names
