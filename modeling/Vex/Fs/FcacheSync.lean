import Vex.Fs.FcacheArray

/-! The dirty queue: the caches of any number of vnodes, and any number of threads in
`fcache_sync`. A sync takes one vnode after the other off the queue and has it written back, and
other calls go on in between. A dirty page is on its vnode's account, and its vnode on the queue
or in the hands of a sync, as long as no writeback that a sync asks for fails; one that fails
leaves its page dirty on a vnode that nobody will look at again. -/

namespace Vex.Fs

open Function

open Lib Mm

/-- A vnode with its `fcache_t`, on the file system `fs`. -/
structure CacheNode where
  vnode : Vnode
  fs : Nat
  tree : Table CachePage
  numDirty : Nat
  queued : Bool

/-- A thread in `fcache_sync`: which file system it syncs (all of them if `none`), how many
vnodes it still takes off the queue, the one it has in hand, and the first error. -/
structure Syncer where
  fs : Option Nat
  pending : Nat
  picked : Option Nat
  retval : Except Errno Unit

/-- `queue` is the list from `dirty_head` on; `disk fs` is the volume below `fs`. -/
structure CacheWorld where
  node : Nat → CacheNode
  disk : Nat → Nat → Nat → UInt8
  queue : List Nat
  syncs : Nat → Syncer

/-- The calls on one vnode. The last is the user side giving up a mapping. -/
inductive CacheCall
  | read (count offset size : Nat)
  | write (bytes : List UInt8) (offset size : Nat)
  | fault (offset size : Nat) (forWrite patched : Bool)
  | writeback (size : Nat)
  | truncate (size : Nat)
  | reclaim (visits : List Nat)
  | unmap (index : Nat)

def CacheCall.run (vnode : Vnode) (c : Fcache) : CacheCall → Fcache
  | .read count offset size => (fcacheRead vnode c count offset size).2
  | .write bytes offset size => (fcacheWrite vnode c bytes offset size).2
  | .fault offset size forWrite patched => (fcacheFault vnode c offset size forWrite patched).2
  | .writeback size => (fcacheWriteback vnode c size).2
  | .truncate size => fcacheTruncate c size
  | .reclaim visits => fcacheReclaim c visits
  | .unmap index => c.modify index fun pg => { pg with mappings := pg.mappings - 1 }

/-- What can happen: a call on a vnode, with the answers it gets; the file system giving a vnode
another block map; and the steps of the thread `t` in `fcache_sync`. -/
inductive CacheEvent
  | call (n : Nat) (luck : List Chance) (call : CacheCall)
  | remap (n : Nat) (bmap : Nat → Bool → Except Errno FcacheExtent)
  | start (t : Nat) (fs : Option Nat)
  | pick (t : Nat)
  | fsync (t : Nat) (luck : List Chance) (size : Nat)

/-- The thread whose step an event is. -/
def CacheEvent.thread : CacheEvent → Option Nat
  | .start t _ | .pick t | .fsync t _ _ => some t
  | _ => none

namespace CacheWorld

/-- The cache of a vnode, as its calls see it. -/
def view (w : CacheWorld) (n : Nat) (luck : List Chance) : Fcache :=
  ⟨(w.node n).tree, (w.node n).numDirty, (w.node n).queued, w.disk (w.node n).fs, luck⟩

/-- Puts the cache of a vnode back; `queue_dirty` puts the vnode at the head of the queue. -/
def store (w : CacheWorld) (n : Nat) (c : Fcache) : CacheWorld where
  node := update w.node n
    { w.node n with tree := c.tree, numDirty := c.numDirty, queued := c.queued }
  disk := update w.disk (w.node n).fs c.disk
  queue := if c.queued && !(w.node n).queued then n :: w.queue else w.queue
  syncs := w.syncs

/-- `fs == nullptr || node->fs == fs`. -/
def concerns (w : CacheWorld) (fs : Option Nat) (n : Nat) : Bool :=
  fs.all fun fs => (w.node n).fs = fs

def setSync (w : CacheWorld) (t : Nat) (s : Syncer) : CacheWorld :=
  { w with syncs := update w.syncs t s }

attribute [local simp] setSync

/-- `*prev = node->pages.dirty_next; node->pages.queued = false`. -/
def dequeue (w : CacheWorld) (n : Nat) : CacheWorld :=
  { w with
    node := update w.node n { w.node n with queued := false }
    queue := w.queue.erase n }

attribute [local simp] dequeue

/-- One event; a thread takes a step of `fcache_sync` only where it stands. -/
def step (w : CacheWorld) : CacheEvent → Option CacheWorld
  | .call n luck call => some (w.store n (call.run (w.node n).vnode (w.view n luck)))
  | .remap n bmap =>
    some { w with
      node := update w.node n
        { w.node n with vnode := { (w.node n).vnode with bmap := bmap } } }
  | .start t fs =>
    if (w.syncs t).pending = 0 ∧ (w.syncs t).picked = none then
      some (w.setSync t ⟨fs, w.queue.countP (w.concerns fs), none, .ok ()⟩)
    else none
  | .pick t =>
    let s := w.syncs t
    if 0 < s.pending ∧ s.picked = none then
      match w.queue.find? (w.concerns s.fs) with
      | none => some (w.setSync t { s with pending := 0 })
      | some n => some ((w.dequeue n).setSync t { s with picked := some n })
    else none
  | .fsync t luck size =>
    let s := w.syncs t
    match s.picked with
    | none => none
    | some n =>
      match fcacheWriteback (w.node n).vnode (w.view n luck) size with
      | (r, c) =>
        some ((w.store n c).setSync t
          { s with pending := s.pending - 1, picked := none, retval := s.retval.bind fun _ => r })

/-- No cache has a page, and nothing runs. -/
def boot (vnode : Nat → Vnode) (fs : Nat → Nat) (disk : Nat → Nat → Nat → UInt8) : CacheWorld where
  node n := ⟨vnode n, fs n, .empty, 0, false⟩
  disk := disk
  queue := []
  syncs _ := ⟨none, 0, none, .ok ()⟩

/-- A sync of the vnode is running. -/
def Syncing (w : CacheWorld) (n : Nat) : Prop := ∃ t, (w.syncs t).picked = some n

/-- No dirty page is forgotten. -/
structure NoneForgotten (w : CacheWorld) : Prop where
  counted : ∀ n, (w.node n).numDirty = (w.node n).tree.count (·.dirty)
  queued : ∀ n index pg, (w.node n).tree.get index = some pg → pg.dirty = true →
    (w.node n).queued = true ∧ n ∈ w.queue ∨ w.Syncing n

/-! ## The invariant -/

structure Inv (w : CacheWorld) : Prop where
  counted : ∀ n, (w.view n []).Counted
  mem_queue : ∀ n, n ∈ w.queue ↔ (w.node n).queued = true
  nodup : w.queue.Nodup
  kept : ∀ n, 0 < (w.node n).numDirty → (w.node n).queued = true ∨ w.Syncing n

theorem Inv.noneForgotten (h : Inv w) : NoneForgotten w where
  counted := h.counted
  queued n index pg hpg hdir := by
    have hpos : 0 < (w.node n).numDirty := by
      refine Nat.pos_of_ne_zero fun h0 => ?_
      have := Table.count_eq_zero.mp ((h.counted n).symm.trans h0) index pg hpg
      rw [hdir] at this
      cases this
    exact (h.kept n hpos).imp_left fun hq => ⟨hq, (h.mem_queue n).mpr hq⟩

theorem inv_boot (vnode : Nat → Vnode) (fs : Nat → Nat) (disk : Nat → Nat → Nat → UInt8) :
    Inv (boot vnode fs disk) where
  counted _ := rfl
  mem_queue n := by simp [boot]
  nodup := List.nodup_nil
  kept n h := absurd h (Nat.not_lt_zero _)

variable {w w' : CacheWorld} {n : Nat} {luck : List Chance} {c : Fcache}

theorem node_store_ne (h : i ≠ n) : (w.store n c).node i = w.node i := update_of_ne h ..

theorem node_store_self : (w.store n c).node n =
    { w.node n with tree := c.tree, numDirty := c.numDirty, queued := c.queued } :=
  update_self ..

theorem mem_queue_store (h : Inv w) (hs : Steady (w.view n luck) c) (i : Nat) :
    i ∈ (w.store n c).queue ↔ ((w.store n c).node i).queued = true := by
  have hkeep := hs.queued
  simp only [view] at hkeep
  by_cases hi : i = n
  · subst hi
    have hmem := h.mem_queue i
    simp only [store]
    cases hc : c.queued <;> cases hn : (w.node i).queued <;> simp_all
  · rw [node_store_ne hi, ← h.mem_queue i]
    simp only [store]
    split <;> simp [hi]

theorem nodup_store (h : Inv w) : (w.store n c).queue.Nodup := by
  simp only [store]
  split
  · next hq =>
    refine List.nodup_cons.mpr ⟨fun hmem => ?_, h.nodup⟩
    simp [(h.mem_queue n).mp hmem] at hq
  · exact h.nodup

theorem inv_store (h : Inv w) (hs : Steady (w.view n luck) c) : Inv (w.store n c) where
  counted i := by
    by_cases hi : i = n
    · subst hi
      have hcnt : c.Counted := hs.counted (h.counted i)
      rw [view, node_store_self]
      exact hcnt
    · rw [view, node_store_ne hi]
      exact h.counted i
  mem_queue := mem_queue_store h hs
  nodup := nodup_store h
  kept i hpos := by
    by_cases hi : i = n
    · subst hi
      rw [node_store_self] at hpos ⊢
      rcases hs.dirty hpos with hold | hq
      · exact (h.kept i hold).imp_left hs.queued
      · exact .inl hq
    · rw [node_store_ne hi] at hpos ⊢
      exact h.kept i hpos

theorem steady_call (vnode : Vnode) (c : Fcache) (call : CacheCall) :
    Steady c (call.run vnode c) := by
  cases call with
  | read => exact steady_fcacheRead rfl
  | write => exact steady_fcacheWrite rfl
  | fault => exact steady_fcacheFault rfl
  | writeback => exact steady_writebackLocked
  | truncate => exact steady_fcacheTruncate
  | reclaim => exact steady_fcacheReclaim
  | unmap => exact .modify fun _ => rfl

/-- The invariant is about the pages, the queue and the syncs only. -/
theorem inv_of_node (h : Inv w)
    (hnd : ∀ i, (w'.node i).tree = (w.node i).tree ∧
      (w'.node i).numDirty = (w.node i).numDirty ∧ (w'.node i).queued = (w.node i).queued)
    (hque : w'.queue = w.queue) (hsyncs : w'.syncs = w.syncs) : Inv w' where
  counted i := by
    rw [view, (hnd i).1, (hnd i).2.1]
    exact h.counted i
  mem_queue i := by
    rw [hque, (hnd i).2.2]
    exact h.mem_queue i
  nodup := hque ▸ h.nodup
  kept i hpos := by
    rw [(hnd i).2.1] at hpos
    rw [(hnd i).2.2, Syncing, hsyncs]
    exact h.kept i hpos

/-- A thread may let go of a vnode that is queued or has no dirty page. -/
theorem inv_setSync (h : Inv w)
    (hkeep : ∀ n, (w.syncs t).picked = some n → s.picked = some n ∨ (w.node n).numDirty = 0) :
    Inv (w.setSync t s) where
  counted := h.counted
  mem_queue := h.mem_queue
  nodup := h.nodup
  kept n hpos := by
    rcases h.kept n hpos with hq | ⟨t', ht'⟩
    · exact .inl hq
    by_cases ht : t' = t
    · subst ht
      refine .inr ⟨t', ?_⟩
      rcases hkeep n ht' with hs | h0
      · exact (congrArg Syncer.picked (update_self ..)).trans hs
      · exact absurd hpos (by simp [h0])
    · exact .inr ⟨t', (congrArg Syncer.picked (update_of_ne ht ..)).trans ht'⟩

theorem inv_pick (h : Inv w) (hid : (w.syncs t).picked = none) (hs : s.picked = some n) :
    Inv ((w.dequeue n).setSync t s) where
  counted i := by
    by_cases hi : i = n
    · subst hi
      simpa [Fcache.Counted, view] using h.counted i
    · simpa [view, hi] using h.counted i
  mem_queue i := by
    by_cases hi : i = n
    · subst hi
      simp [h.nodup.mem_erase_iff]
    · simp [hi, h.mem_queue i]
  nodup := h.nodup.erase n
  kept i hpos := by
    by_cases hi : i = n
    · subst hi
      exact .inr ⟨t, by simp [hs]⟩
    have hpos : 0 < (w.node i).numDirty := by simpa [hi] using hpos
    refine (h.kept i hpos).imp (by simp [hi]) fun ⟨t', ht'⟩ => ⟨t', ?_⟩
    have ht : t' ≠ t := by
      rintro rfl
      rw [hid] at ht'
      cases ht'
    simpa [ht] using ht'

/-- The condition on a step: no request that the `vnode_fsync` of a sync makes fails, neither one
of the block map nor one of the device. -/
def SyncSucceeds (w : CacheWorld) : CacheEvent → Prop
  | .fsync t luck size => ∀ n, (w.syncs t).picked = some n →
    (∀ x ∈ luck, x.ok = true) ∧ Reachable (w.node n).vnode size
  | _ => True

/-- **Step lemma.** -/
theorem inv_step (h : Inv w) (hst : Under SyncSucceeds (Advances step) w e w') : Inv w' := by
  obtain ⟨hok, hst⟩ := hst
  cases e with
  | call n luck call =>
    cases hst
    exact inv_store h (steady_call ..)
  | remap n bmap =>
    cases hst
    refine inv_of_node h (fun i => ?_) rfl rfl
    by_cases hi : i = n
    · subst hi
      simp
    · simp [hi]
  | start t fs =>
    simp only [Advances, step] at hst
    split at hst
    · next hid =>
      cases hst
      refine inv_setSync h fun n hn => ?_
      rw [hid.2] at hn
      cases hn
    · cases hst
  | pick t =>
    simp only [Advances, step] at hst
    split at hst
    · next hid =>
      split at hst
      · cases hst
        exact inv_setSync h fun n hn => .inl hn
      · cases hst
        exact inv_pick h hid.2 rfl
    · cases hst
  | fsync t luck size =>
    simp only [Advances, step] at hst
    split at hst
    · cases hst
    next n hn =>
    obtain ⟨hluck, hrea⟩ := hok n hn
    obtain ⟨c, hrun⟩ : ∃ c, fcacheWriteback (w.node n).vnode (w.view n luck) size = (.ok (), c) :=
      writebackLocked_ok hluck hrea
    rw [hrun, Option.some.injEq] at hst
    subst hst
    have hstd : Steady (w.view n luck) c := by
      have : Steady (w.view n luck) (writebackLocked (w.node n).vnode (w.view n luck) size).2 :=
        steady_writebackLocked
      rwa [show writebackLocked (w.node n).vnode (w.view n luck) size = _ from hrun] at this
    refine inv_setSync (inv_store h hstd) fun i hi => .inr ?_
    cases hn.symm.trans hi
    rw [node_store_self]
    have hcnt : (w.view n luck).Counted := h.counted n
    exact writebackLocked_clean hcnt hrun

/-- **No dirty page is forgotten**, in any run in which no writeback that a sync asks for fails. -/
theorem none_forgotten (vnode : Nat → Vnode) (fs : Nat → Nat) (disk : Nat → Nat → Nat → UInt8)
    (es : List CacheEvent) (w : CacheWorld)
    (hrun : Run (Under SyncSucceeds (Advances step)) (boot vnode fs disk) es w) :
    NoneForgotten w :=
  (hrun.invariant (fun h hs => inv_step h hs) (inv_boot vnode fs disk)).noneForgotten

/-! ## One block device -/

/-- The vnodes of the files keep their block maps, unless the file system changes one. -/
theorem vnode_step (h : Advances step w e w') (he : ∀ n b, e ≠ .remap n b) (i : Nat) :
    (w'.node i).vnode = (w.node i).vnode := by
  have hstore : ∀ n c, ((w.store n c).node i).vnode = (w.node i).vnode := by
    intro n c
    by_cases hi : i = n
    · subst hi
      rw [node_store_self]
    · rw [node_store_ne hi]
  cases e with
  | call n luck call =>
    cases h
    exact hstore n _
  | remap n b => exact absurd rfl (he n b)
  | start t fs =>
    simp only [Advances, step] at h
    split at h <;> cases h
    rfl
  | pick t =>
    simp only [Advances, step] at h
    split at h
    · split at h
      · cases h; rfl
      next n _ =>
      cases h
      by_cases hi : i = n
      · subst hi
        simp
      · simp [hi]
    · cases h
  | fsync t luck size =>
    simp only [Advances, step] at h
    split at h
    · cases h
    · cases h
      exact hstore _ _

theorem syncs_step (h : Advances step w e w') (ht : e.thread ≠ some t) :
    w'.syncs t = w.syncs t := by
  cases e with
  | call => cases h; rfl
  | remap => cases h; rfl
  | start t' fs =>
    have ht : t ≠ t' := fun heq => ht (heq ▸ rfl)
    simp only [Advances, step] at h
    split at h <;> cases h
    exact update_of_ne ht ..
  | pick t' =>
    have ht : t ≠ t' := fun heq => ht (heq ▸ rfl)
    simp only [Advances, step] at h
    split at h
    · split at h <;> (cases h; exact update_of_ne ht ..)
    · cases h
  | fsync t' luck size =>
    have ht : t ≠ t' := fun heq => ht (heq ▸ rfl)
    simp only [Advances, step] at h
    split at h <;> cases h
    exact update_of_ne ht ..

/-- One block device, with eight sectors. -/
def device : CacheWorld := boot (fun _ => devNode 512 8) (fun _ => 0) fun _ _ _ => 0

/-- A page is written, a sync writes it back, and it is written again: the vnode is on the queue
again. -/
theorem none_forgotten_device :
    ∃ w, NoneForgotten w ∧ (w.node 0).numDirty = 1 ∧ w.queue = [0] := by
  have hrun : Run (Advances step) device [.call 0 [] (.write [1] 0 4096), .start 0 none, .pick 0,
      .fsync 0 [] 4096, .call 0 [] (.write [2] 0 4096)] _ := Run.of_foldlM rfl
  refine ⟨_, none_forgotten _ _ _ _ _ (hrun.under_of_invariant
    (J := fun w => ∀ n, (w.node n).vnode = devNode 512 8) (fun _ => rfl)
    (fun ha hJ hs n => (vnode_step hs (by rintro n b rfl; simp at ha) n).trans (hJ n))
    fun {w e} ha hJ => ?_), rfl, rfl⟩
  · simp only [List.mem_cons, List.not_mem_nil, or_false] at ha
    rcases ha with rfl | rfl | rfl | rfl | rfl
    any_goals trivial
    intro n _
    rw [hJ n]
    exact ⟨by simp, reachable_devNode (by decide) (by decide)⟩

/-- The device refuses the write of a sync. The page stays dirty, its vnode is off the queue and no
sync has it; writing to the page again does not bring the vnode back, and the queue is empty for
every later sync. -/
theorem failed_sync_forgets :
    ∃ es w, Run (Advances step) device es w ∧ ¬ NoneForgotten w ∧ w.queue = [] := by
  have hrun : Run (Advances step) device [.call 0 [] (.write [1] 0 4096), .start 0 none, .pick 0,
      .fsync 0 [⟨true, [], false⟩, ⟨false, [], false⟩] 4096, .call 0 [] (.write [2] 0 4096)] _ :=
    Run.of_foldlM rfl
  refine ⟨_, _, hrun, fun h => ?_, rfl⟩
  rcases h.queued 0 0 _ rfl rfl with ⟨-, ⟨⟩⟩ | ⟨t, ht⟩
  by_cases h0 : t = 0
  · subst h0
    cases ht
  · have hothers : Run (Under (fun _ e => e.thread ≠ some t) (Advances step)) device _ _ :=
      hrun.under (by simp [CacheEvent.thread, Ne.symm h0])
    have hnone := hothers.invariant (I := fun w => (w.syncs t).picked = none)
      (fun h hs => (congrArg Syncer.picked (syncs_step hs.2 hs.1)).trans h) rfl
    cases hnone.symm.trans ht

end CacheWorld

end Vex.Fs
