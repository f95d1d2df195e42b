import Vex.Fs.NamesCache
import Vex.Lib.Acyclic

/-! The directories and the parent pointers. As long as no directory is moved under a call that has
read its number and not yet cached its vnode, every cached directory has the vnode of the directory
that lists it as its parent. That makes `is_ancestor` right about the volume, so no rename puts a
directory below itself. -/

namespace Vex.Fs.Names

open Function Disk Option

open Vex.Lib Relation

attribute [local simp] Rename.nodes World.setFrame World.setNode Frame.nodes

/-! ## Volumes -/

namespace Disk

variable {d : Disk} {dir olddir newdir i j f g : Nat} {name oldname newname : Name} {b : Bool}
  {e : DirEntry}

/-- The directory `f` has an entry for the file `g`. -/
def Lists (d : Disk) (f g : Nat) : Prop := ∃ e ∈ d.entries, e.dir = f ∧ d.owner e.ino = g

def DirEdge (d : Disk) (f g : Nat) : Prop := d.Lists f g ∧ d.isDir g

/-- The directory `g` is `f` or below it. -/
def Inside (d : Disk) (f g : Nat) : Prop := ReflTransGen d.DirEdge f g

structure TreeLike (d : Disk) : Prop where
  root_dir : d.isDir 0
  root_made : 0 < d.files
  root_unlisted : ∀ {f}, ¬d.Lists f 0
  listed : ∀ {e}, e ∈ d.entries → e.dir < d.files
  once : ∀ {e e'}, e ∈ d.entries → e' ∈ d.entries → d.owner e.ino = d.owner e'.ino →
    d.isDir (d.owner e.ino) → e = e'
  acyclic : Acyclic d.DirEdge

theorem Lists.alive (h : d.Lists f g) : d.Alive g := by
  obtain ⟨e, he, -, ho⟩ := h
  exact ⟨e, he, ho⟩

theorem Alive.lists (h : d.Alive g) : ∃ f, d.Lists f g := by
  obtain ⟨e, he, ho⟩ := h
  exact ⟨e.dir, e, he, rfl, ho⟩

theorem lists_of_find (h : d.find dir name = some i) : d.Lists dir (d.owner i) := by
  obtain ⟨e, he, hd, -, rfl⟩ := find_eq_some h
  exact ⟨e, he, hd, rfl⟩

theorem TreeLike.lists_unique (h : d.TreeLike) (hg : d.isDir g) (hf : d.Lists f g)
    (hf' : d.Lists f' g) : f = f' := by
  obtain ⟨e, he, rfl, rfl⟩ := hf
  obtain ⟨e', he', rfl, ho⟩ := hf'
  rw [h.once he he' ho.symm hg]

theorem lists_create (hi : ¬d.inUse i) :
    (d.create dir name i b).Lists f g ↔ d.Lists f g ∨ f = dir ∧ g = d.files := by
  obtain ⟨hown, -⟩ := create_spec hi (Eq.refl (d.create dir name i b))
  constructor
  · rintro ⟨e, he, rfl, rfl⟩
    rcases mem_create.1 he with rfl | he
    · exact .inr ⟨rfl, by simp [create]⟩
    · exact .inl ⟨e, he, rfl, (hown he).2.symm⟩
  · rintro (⟨e, he, rfl, rfl⟩ | ⟨rfl, rfl⟩)
    · exact ⟨e, mem_create.2 (.inr he), rfl, (hown he).2⟩
    · exact ⟨_, mem_create.2 (.inl rfl), rfl, by simp [create]⟩

theorem isDir_create (h : f ≠ d.files) : (d.create dir name i b).isDir f = d.isDir f := by
  simp [create, h]

theorem TreeLike.create (h : d.TreeLike) (ht : d.Tidy) (hi : ¬d.inUse i) (hd : dir < d.files) :
    (d.create dir name i b).TreeLike where
  root_dir := by rw [isDir_create (Nat.ne_of_lt h.root_made)]; exact h.root_dir
  root_made := Nat.succ_pos _
  root_unlisted := fun hl => by
    rcases (lists_create hi).1 hl with hl | ⟨-, h0⟩
    · exact h.root_unlisted hl
    · exact Nat.ne_of_lt h.root_made h0
  listed := fun he => by
    rcases mem_create.1 he with rfl | he
    · exact Nat.lt_succ_of_lt hd
    · exact Nat.lt_succ_of_lt (h.listed he)
  once := by
    obtain ⟨hown, hnew, -, -, hdir⟩ := create_spec hi (Eq.refl (d.create dir name i b))
    have howned := @ht.owned
    have honce := @h.once
    simp only [mem_create]
    grind -ring -linarith
  acyclic := by
    refine h.acyclic.insert (a := dir) (b := d.files) (fun hp => ?_) fun {x y} he => ?_
    · -- Nothing is listed in a file that is not made yet.
      rcases ReflTransGen.cases_head hp with he | ⟨g, ⟨⟨e, he, hf, -⟩, -⟩, -⟩
      · exact Nat.ne_of_gt hd he
      · exact Nat.ne_of_lt (h.listed he) hf
    · rcases (lists_create hi).1 he.1 with hl | hl
      · refine .inl ⟨hl, ?_⟩
        obtain ⟨e, hem, -, rfl⟩ := hl
        rw [← isDir_create (Nat.ne_of_lt (ht.owned hem))]
        exact he.2
      · exact .inr hl

theorem Lists.of_remove (h : (d.remove dir name).Lists f g) : d.Lists f g := by
  obtain ⟨e, he, hf, hg⟩ := h
  exact ⟨e, (mem_remove.1 he).1, hf, hg⟩

theorem TreeLike.remove (h : d.TreeLike) : (d.remove dir name).TreeLike where
  root_dir := h.root_dir
  root_made := h.root_made
  root_unlisted := fun hl => h.root_unlisted hl.of_remove
  listed := fun he => h.listed (mem_remove.1 he).1
  once := fun he he' => h.once (mem_remove.1 he).1 (mem_remove.1 he').1
  acyclic := h.acyclic.mono fun he => ⟨he.1.of_remove, he.2⟩

theorem TreeLike.lists_remove (h : d.TreeLike) (hg : d.isDir g) (hl : d.Lists f g)
    (ha : (d.remove dir name).Alive g) : (d.remove dir name).Lists f g := by
  obtain ⟨e, he, ho⟩ := ha
  obtain ⟨e', he', rfl, rfl⟩ := hl
  obtain rfl := h.once (mem_remove.1 he).1 he' ho (ho.symm ▸ hg)
  exact ⟨e, he, rfl, rfl⟩

theorem Lists.of_rename (hj : d.MayRenumber i j)
    (h : (d.rename olddir oldname newdir newname i j).Lists f g) :
    d.Lists f g ∨ f = newdir ∧ g = d.owner i := by
  obtain ⟨e, he, rfl, rfl⟩ := h
  rcases mem_rename.1 he with rfl | ⟨he, -⟩
  · exact .inr ⟨rfl, owner_rename_self⟩
  · exact .inl ⟨e, he, rfl, (owner_rename hj (inUse_iff.2 ⟨e, he, rfl⟩)).symm⟩

theorem TreeLike.rename (h : d.TreeLike) (hf : d.find olddir oldname = some i)
    (hj : d.MayRenumber i j) (hd : newdir < d.files)
    (hout : d.isDir (d.owner i) → ¬d.Inside (d.owner i) newdir) :
    (d.rename olddir oldname newdir newname i j).TreeLike where
  root_dir := h.root_dir
  root_made := h.root_made
  root_unlisted := fun hl => by
    rcases hl.of_rename hj with hl | ⟨-, h0⟩
    · exact h.root_unlisted hl
    · exact h.root_unlisted (h0 ▸ lists_of_find hf)
  listed := fun he => by
    rcases mem_rename.1 he with rfl | ⟨he, -⟩
    · exact hd
    · exact h.listed he
  once := by
    obtain ⟨hown, hsf, -, -, hdir⟩ :=
      rename_spec hj (Eq.refl (d.rename olddir oldname newdir newname i j))
    have honce := @h.once
    obtain ⟨e0, he0, hd0, hn0, hi0⟩ := find_eq_some hf
    simp only [mem_rename]
    grind -ring -linarith
  acyclic := by
    by_cases hdir : d.isDir (d.owner i)
    · refine h.acyclic.insert (hout hdir) fun {x y} he => ?_
      rcases he.1.of_rename hj with hl | hl
      · exact .inl ⟨hl, he.2⟩
      · exact .inr hl
    · refine h.acyclic.mono fun {x y} he => ?_
      rcases he.1.of_rename hj with hl | ⟨-, rfl⟩
      · exact ⟨hl, he.2⟩
      · exact absurd he.2 hdir

theorem TreeLike.lists_rename (h : d.TreeLike) (hj : d.MayRenumber i j) (hg : d.isDir g)
    (hgi : g ≠ d.owner i) (hl : d.Lists f g)
    (ha : (d.rename olddir oldname newdir newname i j).Alive g) :
    (d.rename olddir oldname newdir newname i j).Lists f g := by
  obtain ⟨e, he, ho⟩ := ha
  rcases mem_rename.1 he with rfl | ⟨hem, -⟩
  · exact absurd (ho.symm.trans owner_rename_self) hgi
  obtain ⟨e', he', rfl, rfl⟩ := hl
  have ho' := (owner_rename hj (inUse_iff.2 ⟨e, hem, rfl⟩)).symm.trans ho
  obtain rfl := h.once hem he' ho' (ho'.symm ▸ hg)
  exact ⟨e, he, rfl, ho⟩

end Disk

/-! ## Parents -/

def Task.renames : Task → Bool
  | .lookup | .unlink _ => false
  | .source .. | .victim .. => true

/-- The call is a rename. -/
def Frame.renames : Frame → Bool
  | .asked w | .read w _ | .missed w _ | .filled w _ | .found w _ => w.task.renames
  | .climbing .. | .ready _ | .moved .. => true
  | .idle | .created _ => false

/-- It relies on parent pointers. -/
def Frame.climbs : Frame → Bool
  | .climbing .. | .ready _ => true
  | _ => false

theorem Frame.renames_of_climbs {fr : Frame} (h : fr.climbs) : fr.renames := by
  cases fr <;> first | rfl | cases h

namespace World

variable {n : Nat} {s s' : World n} {t : Fin n} {u v w x i : Nat} {fr : Frame}

/-- `is_ancestor` gets from `u` to `x`. -/
def Climbs (s : World n) (u x : Nat) : Prop :=
  ReflTransGen (fun a b => (s.node a).parent = some b) u x

/-- No call waits to put the vnode of a directory into the cache that is moved to another one. -/
def Still (s : World n) (a : Act n) : Prop :=
  s.Calm a ∧ match a with
    | .move t _ => match s.frame t with
      | .ready r => (s.node r.source).dir ∧ r.olddir ≠ r.newdir → ¬s.Awaited (s.ino r.source)
      | _ => True
    | _ => True

instance (s : World n) (a : Act n) : Decidable (s.Still a) := by
  unfold Still
  refine @instDecidableAnd _ _ _ ?_
  induction a using Act.casesOn with
  | move t =>
    dsimp only
    induction s.frame t using Frame.casesOn <;> infer_instance
  | _ => infer_instance

/-- The parent is the vnode of the directory that lists the vnode. -/
def ParentRight (s : World n) (v : Nat) : Prop :=
  ∃ p, (s.node v).parent = some p ∧ s.disk.Lists (s.file p) (s.file v)

/-- A new vnode is as the volume has it. -/
def Fits (s : World n) (x : Vnode) : Prop :=
  x.dir = s.disk.isDir x.file ∧
    (x.dir → ∃ p, x.parent = some p ∧ s.disk.Lists (s.file p) x.file)

/-- What a call knows about directories. -/
def Places (s : World n) : Frame → Prop
  | .read w i | .missed w i =>
    s.disk.isDir (s.disk.owner i) → s.disk.Lists (s.file w.dir) (s.disk.owner i)
  | .filled _ x | .created x => s.Fits x
  | .climbing r it => s.Climbs r.newdir r.source → ∃ u, it = some u ∧ s.Climbs u r.source
  | .ready r => (s.node r.source).dir → ¬s.Climbs r.newdir r.source
  | .moved v d => s.disk.isDir (s.file v) ∧
    (s.disk.Alive (s.file v) → s.disk.Lists (s.file d) (s.file v))
  | _ => True

/-- No parent is still to be set. -/
def Done (s : World n) (fr : Frame) : Prop :=
  ∀ v d, fr = .moved v d → v ∈ s.cached → s.ParentRight v

attribute [local simp] Done

structure Treed (s : World n) : Prop where
  tree : s.disk.TreeLike
  root : s.file 0 = 0
  types : ∀ {v}, v < s.made → (s.node v).dir = s.disk.isDir (s.file v)
  parents : ∀ {v}, v ∈ s.cached → (s.node v).dir →
    (∃ t d, s.frame t = .moved v d) ∨ s.ParentRight v
  places : ∀ t, s.Places (s.frame t)
  mutex : ∀ {t}, (s.frame t).renames → s.renamer = some t

/-! ## `is_ancestor` is right about the volume -/

theorem Treed.known (h : s.Treed) (hfr : s.frame t = fr) :
    s.Places fr ∧ (fr.renames → s.renamer = some t) := by
  subst hfr
  exact ⟨h.places t, h.mutex⟩

theorem Treed.no_moved (h : s.Treed) (ht : (s.frame t).renames)
    (hne : ∀ v d, s.frame t ≠ .moved v d) (t' : Fin n) (v d : Nat) : s.frame t' ≠ .moved v d := by
  intro hm
  have h1 := h.mutex ht
  have h2 := h.mutex (by rw [hm]; rfl)
  obtain rfl : t' = t := some.inj (h2.symm.trans h1)
  exact hne v d hm

/-- The directories above that of a vnode have their vnodes above it. -/
theorem Treed.climbs_of_inside (hs : s.Sound) (h : s.Treed) (hm : ∀ t v d, s.frame t ≠ .moved v d)
    (hin : s.disk.Inside f g) (hv : s.Referenced v) (hg : s.file v = g) :
    ∃ u, s.Climbs v u ∧ s.Referenced u ∧ s.file u = f := by
  induction hin generalizing v with
  | refl => exact ⟨v, .refl, hv, hg⟩
  | @tail h' g _ he ih =>
    obtain ⟨hl, hdir⟩ := he
    subst hg
    -- The vnode is not the root, which no directory lists.
    have hlt := (hs.live hv).lt hs
    have hc : v ∈ s.cached := by
      rcases hs.live hv with rfl | ⟨-, hc⟩
      · exact absurd (h.root ▸ hl) h.tree.root_unlisted
      · exact hc hl.alive
    obtain ⟨t, d, hfr⟩ | ⟨p, hp, hlp⟩ := h.parents hc (h.types hlt ▸ hdir)
    · exact absurd hfr (hm t v d)
    obtain ⟨u, hu, hru, hfu⟩ := ih (.inr (.inr ⟨v, hlt, hp⟩))
      (h.tree.lists_unique hdir hlp hl)
    exact ⟨u, hu.head hp, hru, hfu⟩

/-- The check of a rename that goes on to `ops->rename` was right. -/
theorem Treed.outside (hs : s.Sound) (h : s.Treed) (hfr : s.frame t = .ready r) (hm : s.MayMove r i)
    (hdir : (s.node r.source).dir) : ¬s.disk.Inside (s.file r.source) (s.file r.newdir) := by
  intro hin
  obtain ⟨hnds, htgt, -⟩ := hfr ▸ hs.frames t
  obtain ⟨hplc, -⟩ := h.known hfr
  have href : ∀ {v}, v ∈ r.nodes → s.Referenced v := fun hv => .inr (.inl ⟨t, by rwa [hfr]⟩)
  have hno := h.no_moved (by rw [hfr]; rfl) (by simp [hfr])
  obtain ⟨u, hu, hru, hfl⟩ := h.climbs_of_inside hs hno hin
    (href (by simp)) rfl
  have hc : s.Certain r.source := htgt _ List.mem_cons_self
  have hi := inUse_of_find hm.1
  have hsrc := hc.cached (hs.live (href (by simp))) hi
  have halv : s.disk.Alive (s.file u) := by
    rw [hfl, ← hc.file hi]
    exact alive_of_inUse hi
  have hu' : u ∈ s.cached := by
    rcases hs.live hru with rfl | ⟨-, hc⟩
    · obtain ⟨f, hf⟩ := halv.lists
      exact absurd (h.root ▸ hf) h.tree.root_unlisted
    · exact hc halv
  have hino := hs.number_inj (hs.current hu').1 (hs.current hsrc).1
    ((hs.current hu').2.trans (hfl.trans (hs.current hsrc).2.symm))
  exact hplc hdir (hs.key hu' hsrc hino ▸ hu)

/-! ## Steps of one thread -/

theorem Treed.reframe (h : s.Treed) (hdk : s'.disk = s.disk) (hnd : s'.node = s.node)
    (hmd : s'.made = s.made) (hca : s'.cached = s.cached)
    (hfrs : ∀ t, s'.frame t = s.frame t ∨ s.Places (s'.frame t) ∧ s.Done (s.frame t))
    (hmtx : ∀ {t}, (s'.frame t).renames → s'.renamer = some t) : s'.Treed := by
  obtain ⟨disk, node, made, cached, held, frame, renamer, seen⟩ := s'
  subst hdk hnd hmd hca
  refine ⟨h.tree, h.root, h.types, fun {v} hv hdir => ?_, fun t => ?_, hmtx⟩
  · rcases h.parents hv hdir with ⟨t, d, hfr⟩ | hp
    case inr => exact .inr hp
    rcases hfrs t with he | ⟨-, hne⟩
    · exact .inl ⟨t, d, he.trans hfr⟩
    · exact .inr (hne v d hfr hv)
  · rcases hfrs t with he | ⟨hp, -⟩
    · change World.Places _ (frame t)
      rw [show frame t = s.frame t from he]
      exact h.places t
    · exact hp

theorem frame_update (fr : Frame) (hp : s.Places fr) (hne : s.Done (s.frame t)) :
    update s.frame t fr t' = s.frame t' ∨
      s.Places (update s.frame t fr t') ∧ s.Done (s.frame t') := by
  by_cases ht : t' = t
  · subst ht
    exact .inr ⟨by simpa using hp, hne⟩
  · exact .inl (by simp [ht])

theorem Treed.setFrame (h : s.Treed) (hne : s.Done (s.frame t)) (hp : s.Places fr)
    (hr : fr.renames → s.renamer = some t) : (s.setFrame t fr).Treed := by
  refine h.reframe rfl rfl rfl rfl (fun _ => frame_update fr hp hne) fun {t'} ht' => ?_
  by_cases ht : t' = t
  · subst ht
    exact hr (by simpa using ht')
  · exact h.mutex (by simpa [ht] using ht')

theorem Treed.leave (h : s.Treed) (hne : s.Done (s.frame t)) : (s.leave t).Treed := by
  refine h.reframe rfl rfl rfl rfl (fun _ => frame_update .idle trivial hne) fun {t'} ht' => ?_
  by_cases ht : t' = t
  · subst ht
    simp [World.leave, Frame.renames] at ht'
  · have hm := h.mutex (by simpa [World.leave, ht] using ht')
    simp [World.leave, hm, ht]

theorem Treed.hold (h : s.Treed) {held : List Nat} : Treed { s with held } :=
  h.reframe rfl rfl rfl rfl (fun _ => .inl rfl) h.mutex

theorem Treed.ask {w : Walk} (h : s.Treed) (hne : s.Done (s.frame t))
    (hr : w.task.renames → s.renamer = some t) : (s.ask t w).Treed :=
  have h1 : (s.setFrame t (.asked w)).Treed := h.setFrame hne trivial hr
  h1.reframe rfl rfl rfl rfl (fun _ => .inl rfl) h1.mutex

section
variable {r : Rename} (hne : s.Done (s.frame t)) (hr : s.renamer = some t)
include hne hr

theorem Treed.compare (h : s.Treed) (hp : (s.node r.source).dir → ¬s.Climbs r.newdir r.source) :
    (s.compare t r).Treed := by
  unfold World.compare
  split
  · exact h.setFrame hne hp fun _ => hr
  · exact h.leave hne

theorem Treed.check (h : s.Treed) : (s.check t r).Treed := by
  unfold World.check
  split
  case isTrue => exact h.setFrame hne (fun hc => ⟨r.newdir, rfl, hc⟩) fun _ => hr
  case isFalse hd => exact h.compare hne hr fun hd' => absurd hd' hd

end

theorem Treed.missing {w : Walk} (h : s.Treed) (hne : s.Done (s.frame t))
    (hr : w.task.renames → s.renamer = some t) : (s.missing t w).Treed := by
  unfold World.missing
  split
  case h_1 hw => exact h.check hne (hr (by rw [hw]; rfl))
  case h_2 => exact h.leave hne

theorem Treed.readStep {w : Walk} (h : s.Treed) (hfr : s.frame t = .asked w)
    (hdots : ¬isDots w.name) : (s.readStep t w dots).Treed := by
  have hne : s.Done (s.frame t) := by simp [hfr]
  obtain ⟨-, hr⟩ := h.known hfr
  unfold World.readStep
  rw [if_neg hdots]
  split
  case h_1 i hi => exact h.setFrame hne (fun _ => lists_of_find hi) hr
  case h_2 => exact h.missing hne hr

theorem Treed.getStep {w : Walk} (h : s.Treed) (hfr : s.frame t = .read w i) :
    (s.getStep t w i).Treed := by
  have hne : s.Done (s.frame t) := by simp [hfr]
  obtain ⟨hp, hr⟩ := h.known hfr
  unfold World.getStep
  split
  · exact h.setFrame hne trivial hr
  · exact h.setFrame hne hp hr

theorem Treed.fillStep {w : Walk} (h : s.Treed) (hfr : s.frame t = .missed w i) :
    (s.fillStep t w i).Treed := by
  have hne : s.Done (s.frame t) := by simp [hfr]
  obtain ⟨hp, hr⟩ := h.known hfr
  unfold World.fillStep
  split
  · exact h.setFrame hne ⟨rfl, fun hd => ⟨w.dir, if_pos hd, hp hd⟩⟩ hr
  · exact h.missing hne hr

theorem Treed.climbStep (h : s.Treed) (hfr : s.frame t = .climbing r it) :
    (s.climbStep t r it).Treed := by
  have hne : s.Done (s.frame t) := by simp [hfr]
  obtain ⟨hp, hr⟩ := h.known hfr
  specialize hr rfl
  cases it with
  | none =>
    refine h.compare hne hr fun _ hc => ?_
    obtain ⟨u, hu, -⟩ := hp hc
    cases hu
  | some u =>
    rw [World.climbStep]
    split
    case isTrue => exact h.leave hne
    rename_i hus
    refine h.setFrame hne (fun hc => ?_) fun _ => hr
    obtain ⟨u', hu', hc⟩ := hp hc
    cases hu'
    rcases ReflTransGen.cases_head hc with he | ⟨b, hb, hc⟩
    · exact absurd he hus
    · exact ⟨b, hb, hc⟩

/-! ## Steps that make and destroy vnodes -/

theorem climbs_iff (hs : s.Sound)
    (hsame : ∀ {a}, s.Referenced a → (s'.node a).parent = (s.node a).parent)
    (hu : s.Referenced u) : s'.Climbs u x ↔ s.Climbs u x :=
  (reflTransGen_congr (P := s.Referenced)
    (fun ha hb => .inr (.inr ⟨_, (hs.live ha).lt hs, hb⟩)) (fun ha => by rw [hsame ha]) hu).symm

/-- The call has to do with where the directory `g` is listed. -/
def Heeds (s : World n) (fr : Frame) (g : Nat) : Prop :=
  (∃ i, fr.pending = some i ∧ s.disk.inUse i ∧ s.disk.owner i = g) ∨ ∃ v d, fr = .moved v d

section
variable (hs : s.Sound)
include hs

/-- A call goes on in another world that agrees on the directories it has to do with. -/
theorem Places.transfer (hs' : s'.Sound) (hfrm : s'.frame t = s.frame t)
    (h : s.Places (s.frame t)) (hfl : ∀ {a}, s.Referenced a → s'.file a = s.file a)
    (hdir : ∀ {a}, s.Referenced a → (s'.node a).dir = (s.node a).dir)
    (hsame : (s.frame t).climbs → ∀ {a}, s.Referenced a → (s'.node a).parent = (s.node a).parent)
    (hpend : ∀ {i}, (s.frame t).pending = some i → s.disk.inUse i →
      s'.disk.owner i = s.disk.owner i)
    (hkd : ∀ {f}, f < s.disk.files → s'.disk.isDir f = s.disk.isDir f)
    (hlis : ∀ {f g}, s.Heeds (s.frame t) g → g < s.disk.files → s.disk.isDir g →
      s.disk.Lists f g → s'.disk.Alive g → s'.disk.Lists f g)
    (halv : ∀ {f}, f < s.disk.files → s'.disk.Alive f → s.disk.Alive f) :
    s'.Places (s'.frame t) := by
  have href : ∀ {a}, a ∈ (s.frame t).nodes → s.Referenced a := fun ha => .inr (.inl ⟨t, ha⟩)
  have hhd := (hs.frames t).holds
  have hhd' := (hs'.frames t).holds
  rw [hfrm] at hhd' ⊢
  cases hfr : s.frame t with
  | read w i | missed w i =>
    rw [hfr] at h hpend href hhd hhd' hlis
    have ho := hpend rfl hhd.1
    have hlt := hs.ino_lt hhd.1
    rw [Places, ho, hkd hlt, hfl (href List.mem_cons_self)]
    exact fun hd => hlis (.inl ⟨i, rfl, hhd.1, rfl⟩) hlt hd (h hd)
      (ho ▸ alive_of_inUse hhd'.1)
  | filled w x =>
    rw [hfr] at h href hhd hhd' hlis
    have hlt := hs.ino_lt hhd.1
    rw [hhd.2.1] at hlt
    refine ⟨h.1.trans (hkd hlt).symm, fun hx => ?_⟩
    obtain ⟨p, hp, hlp⟩ := h.2 hx
    refine ⟨p, hp, ?_⟩
    rw [hfl (href (List.mem_append_left _ (mem_toList.2 hp)))]
    exact hlis (.inl ⟨_, rfl, hhd.1, hhd.2.1⟩) hlt (h.1 ▸ hx) hlp
      (hhd'.2.1 ▸ alive_of_inUse hhd'.1)
  | created x =>
    rw [hfr] at h href hhd hhd' hlis
    have hlt := hs.ino_lt hhd.1
    rw [hhd.2] at hlt
    refine ⟨h.1.trans (hkd hlt).symm, fun hx => ?_⟩
    obtain ⟨p, hp, hlp⟩ := h.2 hx
    refine ⟨p, hp, ?_⟩
    rw [hfl (href (mem_toList.2 hp))]
    exact hlis (.inl ⟨_, rfl, hhd.1, hhd.2⟩) hlt (h.1 ▸ hx) hlp
      (hhd'.2 ▸ alive_of_inUse hhd'.1)
  | climbing r it =>
    rw [hfr] at h hsame href
    have hiff : ∀ {u}, s.Referenced u → (s'.Climbs u r.source ↔ s.Climbs u r.source) :=
      climbs_iff hs (hsame rfl)
    rw [Places, hiff (href (by simp))]
    intro hc
    obtain ⟨u, rfl, hu⟩ := h hc
    exact ⟨u, rfl, (hiff (href (by simp))).2 hu⟩
  | ready r =>
    rw [hfr] at h hsame href
    rw [Places, hdir (href (by simp)),
      climbs_iff hs (hsame rfl) (href (by simp))]
    exact h
  | moved v d =>
    rw [hfr] at h href hlis
    have hv : s.Referenced v := href (by simp)
    have hlt := hs.files v ((hs.live hv).lt hs)
    rw [Places, hfl hv, hfl (href (by simp)), hkd hlt]
    exact ⟨h.1, fun ha => hlis (.inr ⟨v, d, rfl⟩) hlt h.1 (h.2 (halv hlt ha)) ha⟩
  | idle | asked | found => trivial

theorem Treed.publish {x : Vnode} (hs' : (s.publish x).Sound) (h : s.Treed) (hx : s.Fits x)
    (hp : ∀ p ∈ x.parent, s.Known p) : (s.publish x).Treed := by
  obtain ⟨hsf, hne, hfl⟩ := publish_spec s x
  have hnew : (s.publish x).file s.made = x.file := by rw [World.file, hsf]
  have hlt := fun {a} (ha : s.Referenced a) => (hs.live ha).lt hs
  refine ⟨h.tree, (hfl hs.made).trans h.root, fun {v} hv => ?_, fun {v} hv hdir => ?_,
    fun t => ?_, h.mutex⟩
  · rcases Nat.lt_succ_iff_lt_or_eq.1 hv with hv | rfl
    · rw [hne hv, hfl hv]
      exact h.types hv
    · rw [hsf, hnew]
      exact hx.1
  · rcases List.mem_cons.1 hv with rfl | hv
    · rw [hsf] at hdir
      obtain ⟨p, hpar, hl⟩ := hx.2 hdir
      refine .inr ⟨p, by rw [hsf, hpar], ?_⟩
      rw [hfl ((hp p hpar).lt hs), hnew]
      exact hl
    · have hv' := (hs.cached hv).2
      rw [hne hv'] at hdir
      refine (h.parents hv hdir).imp_right ?_
      rintro ⟨p, hpar, hl⟩
      refine ⟨p, by rw [hne hv', hpar], ?_⟩
      rw [hfl ((hs.parents hv' hpar).lt hs), hfl hv']
      exact hl
  · exact Places.transfer hs hs' rfl (h.places t) (fun ha => hfl (hlt ha))
      (fun ha => by rw [hne (hlt ha)]) (fun _ _ ha => by rw [hne (hlt ha)]) (fun _ _ => rfl)
      (fun _ => rfl) (fun _ _ _ hl _ => hl) fun _ ha => ha

theorem Treed.freeStep (h : s.Treed) (hr : ¬s.Referenced v) :
    (s.freeStep v).Treed := by
  have hne : ∀ {w}, w ≠ v → (s.freeStep v).node w = s.node w := fun hw => by
    simp [World.freeStep, uncache, hw]
  have hfl : ∀ w, (s.freeStep v).file w = s.file w := file_setNode rfl
  have hdir : ∀ w, ((s.freeStep v).node w).dir = (s.node w).dir := fun w => by
    by_cases hw : w = v
    · simp [World.freeStep, hw]
    · rw [hne hw]
  have hrne : ∀ {a}, s.Referenced a → a ≠ v := fun ha he => hr (he ▸ ha)
  refine ⟨h.tree, (hfl 0).trans h.root, fun {w} hw => ?_, fun {w} hw hd => ?_, fun t => ?_,
    h.mutex⟩
  · rw [hdir, hfl]
    exact h.types hw
  · obtain ⟨hw, hwv⟩ : w ∈ s.cached ∧ w ≠ v := by
      simpa [World.freeStep, uncache] using hw
    rw [hdir] at hd
    refine (h.parents hw hd).imp_right ?_
    rintro ⟨p, hp, hl⟩
    refine ⟨p, by rw [hne hwv, hp], ?_⟩
    rw [hfl, hfl]
    exact hl
  · exact Places.transfer hs (hs.freeStep hr) rfl (h.places t) (fun _ => hfl _) (fun _ => hdir _)
      (fun _ _ ha => by rw [hne (hrne ha)]) (fun _ _ => rfl) (fun _ => rfl)
      (fun _ _ _ hl _ => hl) fun _ ha => ha

theorem Treed.setParentStep {source : Nat} (h : s.Treed) (hfr : s.frame t = .moved source newdir) :
    (s.setParentStep t source newdir).Treed := by
  obtain ⟨hmvd, -⟩ := h.known hfr
  set s1 := s.setNode source { s.node source with parent := some newdir } with hs1
  have hfl : ∀ w, s1.file w = s.file w := file_setNode rfl
  have hright : source ∈ s.cached → s1.ParentRight source := by
    intro hc
    refine ⟨newdir, by simp [hs1], ?_⟩
    rw [hfl, hfl]
    obtain ⟨hi, ho⟩ := hs.current hc
    exact hmvd.2 (ho ▸ alive_of_inUse hi)
  have hnd : ∀ {w}, w ≠ source → s1.node w = s.node w :=
    fun hw => by simp [hs1, hw]
  have hdir : ∀ w, (s1.node w).dir = (s.node w).dir := fun w => by
    by_cases hw : w = source <;> simp [hs1, hw]
  have h1 : s1.Treed := by
    refine ⟨h.tree, (hfl 0).trans h.root, fun {w} hw => ?_, fun {w} hw hd => ?_, fun t' => ?_,
      h.mutex⟩
    · rw [hdir, hfl]
      exact h.types hw
    · by_cases hws : w = source
      · exact .inr (hws ▸ hright (hws ▸ hw))
      rw [hdir] at hd
      refine (h.parents hw hd).imp_right ?_
      rintro ⟨p, hp, hl⟩
      refine ⟨p, by rw [hnd hws, hp], ?_⟩
      rw [hfl, hfl]
      exact hl
    · have hq : s.Referenced newdir := .inr (.inl ⟨t, by simp [hfr]⟩)
      refine Places.transfer hs (hs.setParent (by rintro _ ⟨⟩; exact hq)) rfl
        (h.places t') (fun _ => hfl _) (fun _ => hdir _) (fun hc => ?_) (fun _ _ => rfl)
        (fun _ => rfl) (fun _ _ _ hl _ => hl) fun _ ha => ha
      -- Only one rename runs, and it is past its checks.
      obtain rfl : t' = t := some.inj
        ((h.mutex (Frame.renames_of_climbs hc)).symm.trans (h.mutex (by rw [hfr]; rfl)))
      rw [hfr] at hc
      cases hc
  refine h1.leave fun v d hm hv => ?_
  have hm : s.frame t = .moved v d := hm
  rw [hfr] at hm
  obtain ⟨rfl, rfl⟩ := hm
  exact hright hv

/-! ## Steps that change the volume -/

theorem Treed.createStep (h : s.Treed) (hfr : s.frame t = .idle) (hd : dir ∈ s.held)
    (hn : s.disk.find (s.file dir) name = none) (hi : ¬s.disk.inUse i) (hcm : ¬s.Relied i) :
    (s.createStep t dir name i directory).Treed := by
  have hs1 := hs.createDisk directory hn hi hcm
  have hlt := hs.files dir ((hs.held dir hd).lt hs)
  have hmono : ∀ {f g}, s.disk.Lists f g →
      (s.disk.create (s.file dir) name i directory).Lists f g :=
    fun hl => (lists_create hi).2 (.inl hl)
  have hkd : ∀ {f}, f < s.disk.files →
      (s.disk.create (s.file dir) name i directory).isDir f = s.disk.isDir f :=
    fun hf => isDir_create (Nat.ne_of_lt hf)
  have h1 : Treed { s with disk := s.disk.create (s.file dir) name i directory } := by
    refine ⟨h.tree.create hs.tidy hi hlt, h.root, fun {v} hv => ?_, fun {v} hv hdir => ?_,
      fun t' => ?_, h.mutex⟩
    · exact (h.types hv).trans (hkd (hs.files v hv)).symm
    · exact (h.parents hv hdir).imp_right fun ⟨p, hp, hl⟩ => ⟨p, hp, hmono hl⟩
    refine Places.transfer hs hs1 rfl (h.places t') (fun _ => rfl) (fun _ => rfl)
      (fun _ _ _ => rfl) (fun _ hj => owner_create fun he => hi (he ▸ hj)) hkd
      (fun _ _ _ hl _ => hmono hl) fun {f} hf ha => ?_
    obtain ⟨g, hl⟩ := ha.lists
    rcases (lists_create hi).1 hl with hl | ⟨-, rfl⟩
    · exact hl.alive
    · exact absurd hf (Nat.lt_irrefl _)
  refine h1.setFrame (by simp [hfr]) ⟨?_, fun hdir => ?_⟩ (by simp [Frame.renames])
  · simp [Disk.create]
  · exact ⟨dir, if_pos hdir, (lists_create hi).2 (.inr ⟨rfl, rfl⟩)⟩

theorem Treed.unlinkDisk (h : s.Treed)
    (hs' : ({ s with disk := s.disk.remove dir name }.forget v).Sound) :
    ({ s with disk := s.disk.remove dir name }.forget v).Treed := by
  have hca := fun {w} => (mem_forget (s := { s with disk := s.disk.remove dir name })
    (v := v) (w := w)).1
  obtain ⟨c, hc⟩ := forget_eq { s with disk := s.disk.remove dir name } v
  rw [hc] at hs' hca ⊢
  refine ⟨h.tree.remove, h.root, h.types, fun {w} hw hdir => ?_, fun t => ?_, h.mutex⟩
  · refine (h.parents (hca hw).1 hdir).imp_right fun ⟨p, hp, hl⟩ => ⟨p, hp, ?_⟩
    obtain ⟨hi, ho⟩ := hs'.current hw
    have hkd := h.types (hs.cached (hca hw).1).2
    exact h.tree.lists_remove (hkd ▸ hdir) hl (ho ▸ alive_of_inUse hi)
  · refine Places.transfer hs hs' rfl (h.places t) (fun _ => rfl) (fun _ => rfl) (fun _ _ _ => rfl)
      (fun _ _ => rfl) (fun _ => rfl) (fun _ _ hg hl ha => h.tree.lists_remove hg hl ha)
      fun _ ha => ?_
    obtain ⟨f, hf⟩ := ha.lists
    exact hf.of_remove.alive

end

section
variable {r : Rename}

theorem moveEntry_rest (s : World n) (r : Rename) (i w : Nat) :
    ((s.moveEntry r i).node w).parent = (s.node w).parent ∧
      ((s.moveEntry r i).node w).dir = (s.node w).dir := by
  obtain ⟨c, hc⟩ := moveEntry_eq s r i
  rw [hc]
  by_cases hw : w = r.source <;> simp [hw]

theorem Treed.moveStep (hs : s.Sound) (h : s.Treed) (hfr : s.frame t = .ready r)
    (hm : s.MayMove r i) (hcm : s.CalmMove r i)
    (hstl : (s.node r.source).dir ∧ r.olddir ≠ r.newdir → ¬s.Awaited (s.ino r.source)) :
    (s.moveStep t r i).Treed := by
  have hs1 := hs.moveEntry hfr hm hcm
  have hk := keeps_moveEntry s r i
  have hdk : (s.moveEntry r i).disk = s.renamed r i := moveEntry_disk
  have hrs := moveEntry_rest s r i
  unfold World.moveStep
  generalize s.moveEntry r i = s1 at hs1 hk hdk hrs ⊢
  obtain ⟨hnds, htgt, -⟩ := hfr ▸ hs.frames t
  have hsrc : s.disk.owner (s.ino r.source) = s.file r.source :=
    (htgt _ List.mem_cons_self).file (inUse_of_find hm.1)
  have hkno : ∀ {v}, v ∈ r.nodes → s.Known v := fun hv => hnds _ hv
  have hslt : r.source < s.made := (hkno (by simp)).lt hs
  have hout : s.disk.isDir (s.disk.owner (s.ino r.source)) →
      ¬s.disk.Inside (s.disk.owner (s.ino r.source)) (s.file r.newdir) := by
    rw [hsrc, ← h.types hslt]
    exact h.outside hs hfr hm
  have hnew : (s.renamed r i).Lists (s.file r.newdir) (s.file r.source) :=
    ⟨_, mem_rename.2 (.inl rfl), rfl, owner_rename_self.trans hsrc⟩
  have hold : s.disk.Lists (s.file r.olddir) (s.file r.source) := hsrc ▸ lists_of_find hm.1
  have htr : s1.disk.TreeLike := by
    rw [hdk]
    exact h.tree.rename hm.1 hm.2.2.2 (hs.files _ ((hkno (by simp)).lt hs)) hout
  have htypes : ∀ {v}, v < s.made → (s1.node v).dir = s1.disk.isDir (s1.file v) := by
    intro v hv
    rw [(hrs v).2, hdk, hk.file]
    exact h.types hv
  have hno := h.no_moved (by rw [hfr]; rfl) (by simp [hfr])
  -- A vnode other than the source keeps its place.
  have hoth : ∀ {v}, v ∈ s1.cached → (s.node v).dir → v ≠ r.source → s1.ParentRight v := by
    intro v hv hdir hvs
    have hvc := hk.cached hv
    obtain ⟨t', d, hfr'⟩ | ⟨p, hp, hl⟩ := h.parents hvc hdir
    · exact absurd hfr' (hno t' v d)
    refine ⟨p, (hrs _).1.trans hp, ?_⟩
    obtain ⟨hi, ho⟩ := hs1.current hv
    rw [hdk, hk.file] at ho
    rw [hdk] at hi
    rw [hdk, hk.file, hk.file]
    refine h.tree.lists_rename hm.2.2.2 (h.types (hs.cached hvc).2 ▸ hdir) (fun he => hvs ?_) hl
      (ho ▸ alive_of_inUse hi)
    have hino := hs.number_inj (hs.current hvc).1 (inUse_of_find hm.1)
      ((hs.current hvc).2.trans he)
    exact hs.key hvc ((htgt _ List.mem_cons_self).cached (hkno (by simp))
      (inUse_of_find hm.1)) hino
  have hplc : ∀ t', s1.Places (s1.frame t') := by
    intro t'
    refine Places.transfer hs hs1 (congrFun hk.frame t') (h.places t') (fun _ => hk.file _)
      (fun _ => (hrs _).2) (fun _ _ _ => (hrs _).1) (fun _ hj => ?_)
      (fun _ => by rw [hdk]; rfl) (fun hh _ hg hl ha => ?_) fun _ ha => ?_
    · rw [hdk]
      exact owner_rename hm.2.2.2 hj
    · rename_i f g _
      rw [hdk] at ha ⊢
      by_cases hgs : g = s.file r.source
      · obtain ⟨j, hp, hj, ho⟩ | ⟨v, d, hfr'⟩ := hh
        · -- Then the source has not been moved away.
          obtain rfl := hs.number_inj hj (inUse_of_find hm.1) (ho.trans (hgs.trans hsrc.symm))
          have hdir : (s.node r.source).dir := by rw [h.types hslt, ← hgs, hg]
          have hsame : r.olddir = r.newdir := not_not.1 fun hne => hstl ⟨hdir, hne⟩ ⟨t', hp⟩
          rw [hgs] at hl hg ⊢
          rw [h.tree.lists_unique hg hl hold, hsame]
          exact hnew
        · exact absurd hfr' (hno t' v d)
      · exact h.tree.lists_rename hm.2.2.2 hg (hsrc ▸ hgs) hl ha
    · rw [hdk] at ha
      obtain ⟨g, hl⟩ := ha.lists
      rcases hl.of_rename hm.2.2.2 with hl | ⟨-, rfl⟩
      · exact hl.alive
      · exact alive_of_inUse (inUse_of_find hm.1)
  have hmtx : ∀ {t'}, (s1.frame t').renames → s1.renamer = some t' := by
    intro t' ht'
    rw [hk.frame] at ht'
    rw [hk.renamer]
    exact h.mutex ht'
  split
  case isTrue hmoves =>
    refine ⟨htr, (hk.file 0).trans h.root, fun hv => htypes (hk.made ▸ hv),
      fun {v} hv hdir => ?_, fun t' => ?_, fun {t'} ht' => ?_⟩
    · by_cases hvs : v = r.source
      · exact .inl ⟨t, r.newdir, by simp [hvs]⟩
      · exact .inr (hoth hv ((hrs v).2 ▸ hdir) hvs)
    · change s1.Places (update s1.frame t _ t')
      by_cases ht : t' = t
      · subst ht
        rw [update_self, Places, ← htypes hslt, (hrs _).2, hdk, hk.file, hk.file]
        exact ⟨hmoves.1, fun _ => hnew⟩
      · rw [update_of_ne ht]
        exact hplc t'
    · by_cases ht : t' = t
      · subst ht
        exact hmtx (by rw [hk.frame, hfr]; rfl)
      · exact hmtx (by simpa [ht] using ht')
  rename_i hsty
  have h1 : s1.Treed := by
    refine ⟨htr, (hk.file 0).trans h.root, fun hv => htypes (hk.made ▸ hv),
      fun {v} hv hdir => .inr ?_, hplc, hmtx⟩
    rw [(hrs v).2] at hdir
    by_cases hvs : v = r.source
    · subst hvs
      have hsame : r.olddir = r.newdir := not_not.1 fun hne => hsty ⟨hdir, hne⟩
      obtain ⟨t', d, hfr'⟩ | ⟨p, hp, hl⟩ := h.parents (hk.cached hv) hdir
      · exact absurd hfr' (hno t' _ d)
      refine ⟨p, (hrs _).1.trans hp, ?_⟩
      rw [hdk, hk.file, hk.file,
        h.tree.lists_unique (h.types hslt ▸ hdir) hl hold, hsame]
      exact hnew
    · exact hoth hv hdir hvs
  refine h1.leave fun v d hm => ?_
  rw [hk.frame, hfr] at hm
  cases hm

end

/-! ## Whole runs -/

theorem Treed.finishStep {w : Walk} (hs : s.Sound) (h : s.Treed) (hfr : s.frame t = .found w v)
    (hcm : s.CalmUnlink w v) (hn : s.finishStep t w v = some s') : s'.Treed := by
  have hne : s.Done (s.frame t) := by simp [hfr]
  obtain ⟨-, hr⟩ := h.known hfr
  obtain ⟨hnds, htgt, -⟩ := hfr ▸ hs.frames t
  obtain ⟨task, dir, name⟩ := w
  cases task with
  | lookup =>
    cases hn
    exact (h.leave hne).hold
  | unlink directory =>
    obtain ⟨hm, ⟨⟩⟩ := ite_none_right_eq_some.1 hn
    have hs' := hs.unlinkDisk (hnds v List.mem_cons_self) (htgt v List.mem_cons_self)
      hm.2.1 hcm.1
    refine (h.unlinkDisk hs hs').leave fun u d hm => ?_
    rw [(keeps_forget ..).frame, hfr] at hm
    cases hm
  | source newdir newname =>
    cases hn
    exact h.ask hne fun _ => hr rfl
  | victim olddir oldname source =>
    cases hn
    exact h.check hne (hr rfl)

theorem Treed.insertFilled {w : Walk} {x : Vnode} (hs : s.Sound) (h : s.Treed)
    (hfr : s.frame t = .filled w x) : (s.insertFilled t w x).Treed := by
  have hne : s.Done (s.frame t) := by simp [hfr]
  obtain ⟨hx, hr⟩ := h.known hfr
  obtain ⟨hnds, -, hi, ho, -⟩ := hfr ▸ hs.frames t
  have hp : ∀ p ∈ x.parent, s.Known p :=
    fun p hp => hnds p (List.mem_append_left _ (mem_toList.2 hp))
  unfold World.insertFilled
  split
  case h_1 => exact h.setFrame hne trivial hr
  case h_2 hf =>
    refine (h.publish hs (hs.publish hi ho hp hf) hx hp).setFrame (fun v d hm => ?_) trivial hr
    rw [show (s.publish x).frame t = .filled w x from hfr] at hm
    cases hm

theorem Treed.insertCreated {x : Vnode} (hs : s.Sound) (h : s.Treed) (hfr : s.frame t = .created x)
    : (s.insertCreated t x).Treed := by
  obtain ⟨hx, -⟩ := h.known hfr
  obtain ⟨hnds, -, hi, ho⟩ := hfr ▸ hs.frames t
  have hp : ∀ p ∈ x.parent, s.Known p := fun p hp => hnds p (mem_toList.2 hp)
  unfold World.insertCreated
  split
  case h_1 => exact (h.leave (by simp [hfr])).hold
  case h_2 hf =>
    refine ((h.publish hs (hs.publish hi ho hp hf) hx hp).leave fun v d hm => ?_).hold
    rw [show (s.publish x).frame t = .created x from hfr] at hm
    cases hm

theorem Treed.rename {w : Walk} (h : s.Treed) (hfr : s.frame t = .idle) (hfree : s.renamer = none) :
    Treed { s.ask t w with renamer := some t } := by
  refine h.reframe rfl rfl rfl rfl
    (fun _ => frame_update (.asked w) trivial (by simp [hfr])) fun {t'} ht' => ?_
  by_cases ht : t' = t
  · rw [ht]
  have := h.mutex (by simpa [World.ask, ht] using ht')
  rw [hfree] at this
  cases this

theorem Treed.next (hs : s.Sound) (h : s.Treed) (hstl : s.Still a) (hn : s.Next a s') :
    s'.Treed := by
  have hcm := hstl.1
  cases hn with
  | root | decref => exact h.hold
  | free hv hr => exact h.freeStep hs hr
  | lookup hfr | unlink hfr =>
    exact h.ask (by simp [hfr]) fun hr => by cases hr
  | rename hfr ho hd hfree => exact h.rename hfr hfree
  | create hfr hd hdir hf hi => exact h.createStep hs hfr hd hf hi hcm.1
  | read hfr =>
    simp only [Calm, hfr] at hcm
    exact h.readStep hfr hcm.1
  | get hfr => exact h.getStep hfr
  | fill hfr => exact h.fillStep hfr
  | insertFilled hfr => exact h.insertFilled hs hfr
  | insertCreated hfr => exact h.insertCreated hs hfr
  | finish hfr hn =>
    simp only [Calm, hfr] at hcm
    exact h.finishStep hs hfr hcm hn
  | climb hfr => exact h.climbStep hfr
  | move hfr hm =>
    simp only [Still, Calm, hfr] at hstl
    exact h.moveStep hs hfr hm hstl.1 hstl.2
  | setParent hfr => exact h.setParentStep hs hfr
  | abort hfr => exact h.leave fun v d hm => absurd hm (hfr v d)

theorem Treed.step (h : (s.Sound ∧ s.Watched) ∧ s.Treed)
    (hst : Under Still (Advances World.step) s a s') : (s'.Sound ∧ s'.Watched) ∧ s'.Treed := by
  refine ⟨Sound.step h.1 ⟨hst.1.1, hst.2⟩, ?_⟩
  obtain ⟨s1, hn, rfl⟩ := map_eq_some_iff.1 hst.2
  have h1 := h.2.next h.1.1 hst.1 (next_cases hn)
  exact h1.reframe rfl rfl rfl rfl (fun _ => .inl rfl) h1.mutex

end World
end Vex.Fs.Names
