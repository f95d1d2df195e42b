import Mathlib.Logic.Relation

/-! The life of a reference-counted object that may also wait in a cache without references.

Its account sums up what the threads of a system have on it. An object is made with one reference,
which its maker has for itself until it publishes the object in the cache. The thread that drops the
last reference owes a look at the object: it is in use again, or waits in the queue of the cache, or
is doomed. An object in the queue may be found again or evicted, which dooms it. -/

namespace Vex.Lib

@[ext] structure Account where
  made : Bool
  /-- The counter of the object. -/
  refcount : Nat
  /-- The references there are, wherever they are kept. -/
  tokens : Nat
  /-- Those among them whose holder has the object for itself. -/
  owns : Nat
  /-- Threads that owe it a look. -/
  keeps : Nat
  /-- Times its destruction is due. -/
  dooms : Nat
  /-- Times its destruction has begun. -/
  destroyed : Nat
  cached : Bool
  queued : Bool

namespace Account

/-- What one step of a system does to one object. The last reference may be dropped only if no other
thread owes the object a look. -/
inductive Move : Account → Account → Prop
  | make (hmade : a.made = false) :
    Move a { a with made := true, refcount := 1, tokens := a.tokens + 1, owns := a.owns + 1 }
  | publish (hown : a.owns ≠ 0) : Move a { a with owns := a.owns - 1, cached := true }
  | gain (hmade : a.made) (hown : a.owns = 0) (hlive : a.dooms + a.destroyed = 0) :
    Move a { a with refcount := a.refcount + 1, tokens := a.tokens + 1, queued := false }
  | drop (htoken : a.tokens ≠ 0) (hown : a.owns = 0) (hmore : a.refcount ≠ 1) :
    Move a { a with refcount := a.refcount - 1, tokens := a.tokens - 1 }
  | dropLast (htoken : a.tokens ≠ 0) (hown : a.owns = 0) (hlast : a.refcount = 1)
      (hkeep : a.keeps = 0) :
    Move a { a with refcount := a.refcount - 1, tokens := a.tokens - 1, keeps := a.keeps + 1 }
  | revived (hkeep : a.keeps ≠ 0) (hcount : a.refcount ≠ 0) :
    Move a { a with keeps := a.keeps - 1 }
  | enqueue (hkeep : a.keeps ≠ 0) (hcount : a.refcount = 0) (hcached : a.cached) :
    Move a { a with keeps := a.keeps - 1, queued := true }
  | doom (hkeep : a.keeps ≠ 0) (hcount : a.refcount = 0) (hcached : a.cached = false) :
    Move a { a with keeps := a.keeps - 1, dooms := a.dooms + 1 }
  | evict (hqueued : a.queued) :
    Move a { a with cached := false, queued := false, dooms := a.dooms + 1 }
  | uncache (htoken : a.tokens ≠ 0) : Move a { a with cached := false }
  | destroy (hdoom : a.dooms ≠ 0) :
    Move a { a with dooms := a.dooms - 1, destroyed := a.destroyed + 1 }
  | discard (hown : a.owns ≠ 0) :
    Move a { a with tokens := a.tokens - 1, owns := a.owns - 1, destroyed := a.destroyed + 1 }

structure Fine (a : Account) : Prop where
  unmade : a.made = false → a.tokens = 0 ∧ a.owns = 0 ∧ a.keeps = 0 ∧ a.dooms = 0 ∧
    a.destroyed = 0 ∧ a.cached = false
  counted : a.destroyed = 0 → a.refcount = a.tokens
  once : a.keeps + a.dooms + a.destroyed ≤ 1
  dying : a.dooms + a.destroyed ≠ 0 → a.tokens = 0 ∧ a.cached = false
  waiting : a.queued → a.cached ∧ a.tokens = 0 ∧ a.keeps = 0
  own : a.owns ≠ 0 → a.owns = 1 ∧ a.tokens = 1 ∧ a.keeps = 0 ∧ a.cached = false

variable {a b : Account}

theorem Fine.move (h : a.Fine) (hm : Move a b) : b.Fine := by
  cases h
  cases hm <;> constructor <;> grind -ring -linarith

theorem Fine.moves (h : a.Fine) (hm : Relation.ReflTransGen Move a b) : b.Fine := by
  induction hm with
  | refl => exact h
  | tail _ hm ih => exact ih.move hm

/-- Whoever has a reference finds the object alive and out of the queue. -/
theorem Fine.of_tokens (h : a.Fine) (ht : a.tokens ≠ 0) :
    a.made ∧ a.dooms = 0 ∧ a.destroyed = 0 ∧ a.queued = false := by
  cases h
  grind -ring -linarith

theorem Fine.of_cached (h : a.Fine) (hc : a.cached) :
    a.made ∧ a.owns = 0 ∧ a.dooms = 0 ∧ a.destroyed = 0 := by
  cases h
  grind -ring -linarith

end Account
end Vex.Lib
