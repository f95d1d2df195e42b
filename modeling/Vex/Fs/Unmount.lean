import Mathlib.Algebra.GroupWithZero.Nat
import Vex.Lib.Run
import Vex.Lib.Tally

/-! `vfs_unmount` of one file system against path walks on any number of threads.

Only the references to vnodes of this file system are followed. A walk takes and drops them one step
at a time. The unmounter goes through its phases; while it scans the counts it holds `cache_lock`,
which `vcache_get`, `vcache_get_or_insert` and `vcache_keep` need, but not `vfs_cross_mount` of a
vnode that is not a mount point, `parent_of` and the `fetch_sub` of `vnode_decref`. -/

namespace Vex.Fs.Unmount

open Vex.Lib Function

/-- Where `vfs_unmount` is. -/
inductive Phase
  | idle
  /-- `unmounting` is set. -/
  | flagged
  /-- `fcache_sync` is done. -/
  | synced
  /-- `orphans` was read, and zero. -/
  | checked
  /-- In `vcache_in_use`: the vnodes still to be read, and the sums so far. -/
  | scanning (rest : List Nat) (actual expected : Nat)
  /-- `vcache_in_use` said no. -/
  | decided
  /-- The mount is undone: `vcache_evict` and `ops->unmount` run. -/
  | torn
  deriving DecidableEq, Repr

structure World (n : Nat) where
  root : Nat
  /-- The references to the root that the mount itself holds: two for `/`, else one. -/
  rootRefs : Nat
  parent : Nat → Option Nat
  pinned : Nat → Bool
  /-- The cached vnodes, in the order in which `vcache_in_use` meets them. -/
  cached : List Nat
  /-- Vnodes without names that are still referenced; their number is `orphans`. -/
  orphaned : List Nat
  refcount : Nat → Nat
  /-- References of destroyed vnodes to their parents, still to be dropped. -/
  owed : List Nat
  /-- The references each walk holds. -/
  walks : Fin n → List Nat
  unmounting : Bool
  phase : Phase

inductive Act (n : Nat)
  /-- `vfs_cross_mount` of the mount point. -/
  | cross (t : Fin n)
  /-- `vfs_cross_mount` of another vnode, or `vnode_incref`. -/
  | incref (t : Fin n) (v : Nat)
  /-- `vcache_get` for an entry of the directory `d`. -/
  | get (t : Fin n) (d v : Nat)
  /-- `vcache_get_or_insert` of a new vnode for an entry of `d`, at the place `k` of the order. -/
  | fill (t : Fin n) (d v k : Nat) (directory : Bool)
  | parentOf (t : Fin n) (v : Nat)
  /-- The `fetch_sub` of `vnode_decref`. -/
  | decref (t : Fin n) (v : Nat)
  /-- `vcache_keep` evicts a vnode, and `vnode_destroy` begins. -/
  | evict (v : Nat)
  /-- `vnode_destroy` of an orphan. -/
  | reap (v : Nat)
  /-- A destroyed vnode's reference to its parent is dropped. -/
  | settle (v : Nat)
  /-- The next step of `vfs_unmount`; `ok` is the answer of a sync. -/
  | unmount (ok : Bool)
  deriving DecidableEq, Repr

namespace World

variable {n : Nat}

def locked (s : World n) : Bool :=
  match s.phase with
  | .scanning .. => true
  | _ => false

def alive (s : World n) : List Nat := s.root :: (s.cached ++ s.orphaned)

def setCount (s : World n) (v count : Nat) : World n :=
  { s with refcount := update s.refcount v count }

def take (s : World n) (t : Fin n) (v : Nat) : World n :=
  { s.setCount v (s.refcount v + 1) with
    walks := update s.walks t (v :: s.walks t) }

def drop (s : World n) (t : Fin n) (v : Nat) : World n :=
  { s.setCount v (s.refcount v - 1) with
    walks := update s.walks t ((s.walks t).erase v) }

/-- `parent_of`, within the file system. -/
def parentOf (s : World n) (v : Nat) : Nat := (s.parent v).getD v

def giveUp (s : World n) : World n := { s with unmounting := false, phase := .idle }

/-- What a cached vnode adds to the expected references. -/
def expectedOf (s : World n) (v : Nat) : Nat :=
  (if s.pinned v then 1 else 0) + if (s.parent v).isSome then 1 else 0

def unmountStep (s : World n) (ok : Bool) : World n :=
  match s.phase with
  | .idle => { s with unmounting := true, phase := .flagged }
  | .flagged => if ok then { s with phase := .synced } else s.giveUp
  | .synced => if s.orphaned.length ≠ 0 then s.giveUp else { s with phase := .checked }
  | .checked => { s with phase := .scanning s.cached (s.refcount s.root) s.rootRefs }
  | .scanning (v :: rest) actual expected =>
    { s with phase := .scanning rest (actual + s.refcount v) (expected + s.expectedOf v) }
  | .scanning [] actual expected =>
    if actual > expected then s.giveUp else { s with phase := .decided }
  | .decided => if ok then { s with phase := .torn } else s.giveUp
  | .torn => s

def fillStep (s : World n) (t : Fin n) (d v k : Nat) (directory : Bool) : World n :=
  { s with
    refcount := update
      (if directory then update s.refcount d (s.refcount d + 1) else s.refcount) v 1
    parent := update s.parent v (if directory then some d else none)
    cached := s.cached.take k ++ v :: s.cached.drop k
    walks := update s.walks t (v :: s.walks t) }

def step (s : World n) : Act n → Option (World n)
  | .cross t => if s.unmounting then none else some (s.take t s.root)
  | .incref t v => if v ∈ s.walks t then some (s.take t v) else none
  | .get t d v =>
    if ¬s.locked ∧ d ∈ s.walks t ∧ v ∈ s.cached then some (s.take t v) else none
  | .fill t d v k directory =>
    if ¬s.locked ∧ d ∈ s.walks t ∧ v ∉ s.alive ∧ ¬s.pinned v then
      some (s.fillStep t d v k directory)
    else none
  | .parentOf t v => if v ∈ s.walks t then some (s.take t (s.parentOf v)) else none
  | .decref t v => if v ∈ s.walks t then some (s.drop t v) else none
  | .evict v =>
    if ¬s.locked ∧ v ∈ s.cached ∧ s.refcount v = 0 then
      some { s with cached := s.cached.erase v, owed := (s.parent v).toList ++ s.owed }
    else none
  | .reap v =>
    if v ∈ s.orphaned ∧ s.refcount v = 0 then
      some { s with orphaned := s.orphaned.erase v, owed := (s.parent v).toList ++ s.owed }
    else none
  | .settle v =>
    if v ∈ s.owed then some { s.setCount v (s.refcount v - 1) with owed := s.owed.erase v }
    else none
  | .unmount ok => some (s.unmountStep ok)

/-! ## The references are accounted for -/

def held (s : World n) (v : Nat) : Nat := tally (fun vs => vs.count v) s.walks

/-- The vnodes that keep `v` as their parent. -/
def kids (s : World n) (v : Nat) : Nat :=
  (s.cached ++ s.orphaned).countP fun w => s.parent w = some v

/-- The references to `v` that no walk holds and no destroyed vnode owes. -/
def base (s : World n) (v : Nat) : Nat :=
  s.kids v + (if s.pinned v then 1 else 0) + if v = s.root then s.rootRefs else 0

structure Balanced (s : World n) : Prop where
  nodup : s.alive.Nodup
  counted : ∀ v, s.refcount v = s.held v + s.owed.count v + s.base v
  parents : ∀ {v p}, v ∈ s.cached ++ s.orphaned → s.parent v = some p → p ∈ s.alive
  walks : ∀ {t v}, v ∈ s.walks t → v ∈ s.alive
  owed : ∀ {v}, v ∈ s.owed → v ∈ s.alive
  pinned : ∀ {v}, s.pinned v → v ∈ s.cached
  root : s.parent s.root = none ∧ s.rootRefs ≠ 0

/-- What the phase of the unmounter has established. -/
def Certain (s : World n) : Prop :=
  match s.phase with
  | .idle => True
  | .flagged | .synced => s.unmounting
  | .checked => s.unmounting ∧ s.orphaned = []
  | .scanning rest actual expected => s.unmounting ∧ s.orphaned = [] ∧
    ∃ done, s.cached = done ++ rest ∧ expected = s.rootRefs + (done.map s.expectedOf).sum ∧
      ((s.root :: done).map s.base).sum + (s.root :: done).countP (fun v => 0 < s.held v) ≤ actual
  | .decided | .torn => s.unmounting ∧ ∀ t, s.walks t = []

/-- While the counts are read, no walk goes from a directory to its parent. -/
def Quiet (s : World n) : Act n → Prop
  | .parentOf .. => s.locked = false
  | _ => True

instance (s : World n) (a : Act n) : Decidable (s.Quiet a) := by
  cases a <;> unfold Quiet <;> infer_instance

end World
end Vex.Fs.Unmount
