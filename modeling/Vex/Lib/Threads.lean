import Mathlib.Logic.Function.Basic
import Vex.Lib.Run

/-! Any number of threads over one shared state. A thread is a place in the code, with the local
variables it has there; a step of the system is a step of one thread. -/

namespace Vex.Lib

variable {T σ π α : Type*}

/-- A shared state and the place of every thread. -/
structure Threads (T σ π : Type*) where
  shared : σ
  pc : T → π

namespace Threads

variable [DecidableEq T]

/-- Thread `t` goes on to `p` and leaves the shared state `s`. -/
def move (w : Threads T σ π) (t : T) (s : σ) (p : π) : Threads T σ π :=
  { shared := s, pc := Function.update w.pc t p }

/-- One thread takes the step that `next` gives for it at its place. -/
def step (next : T → σ → π → α → Option (σ × π)) (w : Threads T σ π) (a : T × α) :
    Option (Threads T σ π) :=
  (next a.1 w.shared (w.pc a.1) a.2).map fun r => w.move a.1 r.1 r.2

variable {w w' : Threads T σ π} {t u : T} {s : σ} {p : π}

@[simp] theorem move_shared : (w.move t s p).shared = s := rfl

@[simp] theorem move_pc_self : (w.move t s p).pc t = p := Function.update_self ..

theorem move_pc_of_ne (h : u ≠ t) : (w.move t s p).pc u = w.pc u := Function.update_of_ne h ..

/-- What holds at the new place of `t` and at the places of the others holds at every place. -/
@[elab_as_elim] theorem move_cases {motive : π → Prop} (u : T) (ht : motive p)
    (hoth : u ≠ t → motive (w.pc u)) : motive ((w.move t s p).pc u) := by
  by_cases hu : u = t
  · subst hu
    rwa [move_pc_self]
  · rw [move_pc_of_ne hu]
    exact hoth hu

theorem step_cases (h : w.step next a = some w') :
    ∃ s p, next a.1 w.shared (w.pc a.1) a.2 = some (s, p) ∧ w' = w.move a.1 s p := by
  obtain ⟨⟨s, p⟩, hnx, rfl⟩ := Option.map_eq_some_iff.mp h
  exact ⟨s, p, hnx, rfl⟩

end Threads

end Vex.Lib
