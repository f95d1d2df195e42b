import Vex.Lib.Run
import Vex.Lib.Tally
import Vex.Fs.Vcache

/-! Reference counts of vnodes: `vnode_incref`, `vnode_decref` and `vnode_destroy` on any number of
threads, with the vnode cache between them.

A step is what one thread does at once: an atomic operation on a count, or a section under
`cache_lock`. What a thread still owes after a step is its `todo` list, the innermost call first:
`vnode_decref` owes `vcache_keep` after a `fetch_sub` from one, `vcache_keep` owes `vnode_destroy`
of the vnodes it evicted, and `vnode_destroy` owes the reference to the parent. -/

namespace Vex.Fs.Refs

open Vex.Lib Function

inductive Task
  | decref (v : Nat)
  | keep (v : Nat)
  | destroy (v : Nat)
  deriving DecidableEq, Repr

structure Thread where
  /-- The references it holds. -/
  held : List Nat
  /-- Vnodes it made that are not in the cache yet. -/
  fresh : List Nat
  /-- Vnodes it made for which `vcache_get_or_insert` returned another one, or none. -/
  lost : List Nat
  todo : List Task
  deriving DecidableEq, Repr

/-- The references to `v` that the thread has or owes. -/
def Thread.refs (th : Thread) (v : Nat) : Nat :=
  th.held.count v + th.fresh.count v + th.lost.count v + th.todo.count (.decref v)

/-- The vnodes below `made` exist or have existed. -/
structure World (n : Nat) where
  cache : Vcache
  made : Nat
  refcount : Nat → Nat
  parent : Nat → Option Nat
  fs : Nat → Nat
  ino : Nat → Nat
  /-- How often `vnode_destroy` has begun. -/
  destroyed : Nat → Nat
  threads : Fin n → Thread

inductive Op
  /-- A new vnode; one for a directory takes a reference to its parent. -/
  | alloc (fs ino : Nat) (parent : Option Nat)
  | incref (v : Nat)
  | decref (v : Nat)
  | get (fs ino : Nat)
  /-- `vcache_get_or_insert`; `room` says whether the entry could be allocated. -/
  | insert (v : Nat) (room : Bool)
  | remove (v : Nat)
  /-- `vnode_destroy` of a vnode that lost against another one. -/
  | discard (v : Nat)
  /-- The next thing the thread owes. -/
  | proceed
  deriving DecidableEq, Repr

namespace World

variable {n : Nat}

def init (n : Nat) : World n where
  cache := .empty
  made := 0
  refcount _ := 0
  parent _ := none
  fs _ := 0
  ino _ := 0
  destroyed _ := 0
  threads _ := ⟨[], [], [], []⟩

def setThread (s : World n) (t : Fin n) (th : Thread) : World n :=
  { s with threads := update s.threads t th }

def setCount (s : World n) (v count : Nat) : World n :=
  { s with refcount := update s.refcount v count }

/-- The `fetch_sub` of `vnode_decref`. -/
def dropRef (s : World n) (t : Fin n) (th : Thread) (v : Nat) : World n :=
  (s.setCount v (s.refcount v - 1)).setThread t
    { th with todo := if s.refcount v = 1 then .keep v :: th.todo else th.todo }

/-- `vnode_destroy`, up to the reference to the parent. -/
def beginDestroy (s : World n) (t : Fin n) (th : Thread) (v : Nat) : World n :=
  { s with destroyed := update s.destroyed v (s.destroyed v + 1) }.setThread t
    { th with todo := (s.parent v).toList.map Task.decref ++ th.todo }

/-- A reference to `v` that the thread holds from now on. -/
def takeRef (s : World n) (t : Fin n) (th : Thread) (v : Nat) : World n :=
  (s.setCount v (s.refcount v + 1)).setThread t { th with held := v :: th.held }

def allocStep (s : World n) (t : Fin n) (th : Thread) (fs ino : Nat) (parent : Option Nat) :
    World n :=
  let v := s.made
  let s := match parent with
    | none => s
    | some p => s.setCount p (s.refcount p + 1)
  { s.setCount v 1 with
    made := v + 1
    parent := update s.parent v parent
    fs := update s.fs v fs
    ino := update s.ino v ino }.setThread t { th with fresh := v :: th.fresh }

def insertStep (s : World n) (t : Fin n) (th : Thread) (v : Nat) (room : Bool) : World n :=
  let th := { th with fresh := th.fresh.erase v }
  if room then
    let r := s.cache.insert v (s.fs v) (s.ino v) false
    if r.1 = v then { s with cache := r.2 }.setThread t { th with held := v :: th.held }
    else { s with cache := r.2 }.takeRef t { th with lost := v :: th.lost } r.1
  else s.setThread t { th with lost := v :: th.lost }

/-- The next thing the thread owes. -/
def proceedStep (max : Nat) (s : World n) (t : Fin n) (th : Thread) : World n :=
  match th.todo with
  | [] => s
  | .decref v :: rest => s.dropRef t { th with todo := rest } v
  | .destroy v :: rest => s.beginDestroy t { th with todo := rest } v
  | .keep v :: rest =>
    match s.cache.keep max (s.refcount v) v with
    | .used => s.setThread t { th with todo := rest }
    | .uncached => s.setThread t { th with todo := .destroy v :: rest }
    | .queued cache evicted =>
      { s with cache }.setThread t { th with todo := evicted.map Task.destroy ++ rest }

/-- What the thread has to have for a step. -/
def Allowed (th : Thread) : Op → Prop
  | .proceed => th.todo ≠ []
  | .alloc _ _ parent => th.todo = [] ∧ ∀ p ∈ parent, p ∈ th.held
  | .incref v | .decref v | .remove v => th.todo = [] ∧ v ∈ th.held
  | .get _ _ => th.todo = []
  | .insert v _ => th.todo = [] ∧ v ∈ th.fresh
  | .discard v => th.todo = [] ∧ v ∈ th.lost

instance (th : Thread) (op : Op) : Decidable (Allowed th op) := by
  cases op <;> unfold Allowed <;> infer_instance

/-- The world after a step of the thread `t`. -/
def after (max : Nat) (s : World n) (t : Fin n) (th : Thread) : Op → World n
  | .proceed => s.proceedStep max t th
  | .alloc fs ino parent => s.allocStep t th fs ino parent
  | .incref v => s.takeRef t th v
  | .decref v => s.dropRef t { th with held := th.held.erase v } v
  | .get fs ino =>
    match s.cache.get fs ino with
    | none => s
    | some (w, cache) => { s with cache }.takeRef t th w
  | .insert v room => s.insertStep t th v room
  | .remove v => { s with cache := s.cache.remove v }
  | .discard v => s.beginDestroy t { th with lost := th.lost.erase v } v

def step (max : Nat) (s : World n) (a : Fin n × Op) : Option (World n) :=
  if Allowed (s.threads a.1) a.2 then some (s.after max a.1 (s.threads a.1) a.2) else none

/-- The vnodes whose memory a step reads or writes. -/
def touched (max : Nat) (s : World n) (a : Fin n × Op) : List Nat :=
  match a.2 with
  | .alloc _ _ parent => parent.toList
  | .incref v | .decref v | .remove v | .discard v => [v]
  | .get fs ino => (s.cache.findNolock fs ino).toList
  | .insert v _ => v :: (s.cache.findNolock (s.fs v) (s.ino v)).toList
  | .proceed =>
    match (s.threads a.1).todo with
    | [] => []
    | .decref v :: _ | .destroy v :: _ => [v]
    | .keep v :: _ =>
      match s.cache.keep max (s.refcount v) v with
      | .queued _ evicted => v :: evicted
      | _ => [v]

/-- The vnode whose `vnode_destroy` a step begins, other than one that lost. -/
def destroys (s : World n) (a : Fin n × Op) : Option Nat :=
  match a.2, (s.threads a.1).todo with
  | .proceed, .destroy v :: _ => some v
  | _, _ => none

end World
end Vex.Fs.Refs
