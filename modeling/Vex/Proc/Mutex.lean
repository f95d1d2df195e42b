import Vex.Lib.Tally
import Vex.Lib.Threads
import Vex.Proc.Event

/-! Mutexes (`mutex.c`) over any number of threads. The owner and the count of waiters are under the
mutex's lock, listeners and pending wakeups under the lock of its event; every stretch under one of
them is one step. -/

namespace Vex.Proc

open Lib Threads Event Option

/-- `mutex_t`. The count stays below `2 ^ 32`, as the number of threads does. -/
structure Mutex (T : Type) where
  owner : Option T
  numWaiters : Nat
  released : Event T
  deriving DecidableEq, Repr

namespace Mutex

/-- Where a thread is. -/
inductive Pc
  | idle
  /-- In `mutex_acquire`, before it takes the lock. `intr` if interrupts are enabled. -/
  | acquiring (intr : Bool)
  /-- Counted as a waiter, before `event_await`. -/
  | waiting
  /-- `event_await` found nothing. -/
  | polled
  /-- On the list of listeners, or just taken off it. -/
  | listening
  /-- `event_await_blocking` has returned. -/
  | resuming
  | holding
  /-- In `mutex_release`, when the owner is cleared. -/
  | releasing (contended : Bool)
  deriving DecidableEq, Repr

inductive Act
  | acquire (intr : Bool)
  | tryAcquire
  | release
  /-- The next step of the function the thread is in; `memory` if there is some for a listener. -/
  | next (memory : Bool)
  deriving DecidableEq, Repr

variable {T : Type}

/-- `mutex_init`. -/
def init : Mutex T := { owner := none, numWaiters := 0, released := .init }

/-- The head of the loop in `mutex_acquire`, under the lock. -/
def enter (m : Mutex T) (thread : T) (intr : Bool) : Mutex T × Pc :=
  match m.owner with
  | none => ({ m with owner := some thread }, .holding)
  | some _ =>
    -- with interrupts disabled nothing can switch away, so the thread spins
    if intr then ({ m with numWaiters := m.numWaiters + 1 }, .waiting)
    else (m, .acquiring intr)

def next [DecidableEq T] (m : Mutex T) (thread : T) (memory : Bool) : Pc → Option (Mutex T × Pc)
  | .idle | .holding => none
  | .acquiring intr => some (m.enter thread intr)
  | .waiting =>
    match m.released.await with
    | some released => some ({ m with released := released }, .resuming)
    | none => some (m, .polled)
  | .polled =>
    match m.released.await with
    | some released => some ({ m with released := released }, .resuming)
    | none =>
      if memory then some ({ m with released := m.released.listen thread }, .listening)
      else some (m, .resuming)
  | .listening => if thread ∈ m.released.listeners then none else some (m, .resuming)
  | .resuming => some (({ m with numWaiters := m.numWaiters - 1 }).enter thread true)
  | .releasing contended =>
    if contended then some ({ m with released := m.released.trigger UINT32_MAX }, .idle)
    else some (m, .idle)

def step [DecidableEq T] (thread : T) (m : Mutex T) (pc : Pc) : Act → Option (Mutex T × Pc)
  | .next memory => m.next thread memory pc
  | .acquire intr => if pc = .idle then some (m, .acquiring intr) else none
  | .tryAcquire =>
    if pc = .idle then
      match m.owner with
      | none => some ({ m with owner := some thread }, .holding)
      | some _ => some (m, .idle)
    else none
  | .release =>
    if pc = .holding then some ({ m with owner := none }, .releasing (m.numWaiters > 0)) else none

abbrev World (T : Type) := Threads T (Mutex T) Pc

namespace World

def step [DecidableEq T] : World T → T × Act → Option (World T) := Threads.step Mutex.step

/-- No thread holds the mutex or waits for it. -/
def init : World T := { shared := .init, pc := fun _ => .idle }

end World

namespace Pc

/-- Inside `mutex_acquire`. -/
def inside : Pc → Bool
  | acquiring _ | waiting | polled | listening | resuming => true
  | _ => false

/-- Counted in `num_waiters`. -/
def waits : Pc → Bool
  | waiting | polled | listening | resuming => true
  | _ => false

end Pc

/-- A place of `t` that a wakeup is bound to: before the trigger of a contended mutex, or past the
wait and on the way to the lock. -/
def Pc.Carries (released : Event T) (t : T) : Pc → Prop
  | releasing contended => contended
  | resuming => True
  | listening => t ∉ released.listeners
  | _ => False

attribute [local simp] Pc.Carries

namespace World

/-- Asleep as a listener of `released`. -/
def Asleep (w : World T) (t : T) : Prop :=
  w.pc t = .listening ∧ t ∈ w.shared.released.listeners

/-- Between clearing the owner of a contended mutex and the trigger. -/
def Triggers (w : World T) (t : T) : Prop := w.pc t = .releasing true

/-- A wakeup is on its way to a waiter. -/
def Wakeup (w : World T) : Prop :=
  0 < w.shared.released.numPending ∨ ∃ t, (w.pc t).Carries w.shared.released t

structure Inv [Fintype T] (w : World T) : Prop where
  holder : ∀ t, w.pc t = .holding ↔ w.shared.owner = some t
  count : w.shared.numWaiters = tally (fun p => p.waits.toNat) w.pc
  listeners : ∀ t ∈ w.shared.released.listeners, w.pc t = .listening
  /-- A mutex that nobody owns and somebody waits for has a wakeup on its way. -/
  wakeup : w.shared.owner = none → 0 < w.shared.numWaiters → w.Wakeup

variable [DecidableEq T] {w w' : World T} {t : T} {m : Mutex T} {p : Pc}

/-- A step that leaves the event alone takes no wakeup off its way, unless the thread does. -/
theorem Wakeup.move (h : w.Wakeup) (hevt : m.released = w.shared.released)
    (hp : (w.pc t).Carries w.shared.released t → p.Carries w.shared.released t) :
    Wakeup (w.move t m p) := by
  rcases h with hpnd | ⟨u, hu⟩
  · exact .inl (by simpa [hevt] using hpnd)
  refine .inr ⟨u, ?_⟩
  rw [move_shared, hevt]
  by_cases hut : u = t
  · subst hut
    simpa using hp hu
  · rwa [move_pc_of_ne hut]

variable [Fintype T]

theorem Inv.count_move (h : w.Inv)
    (hcnt : m.numWaiters + (w.pc t).waits.toNat = w.shared.numWaiters + p.waits.toNat) :
    m.numWaiters = tally (fun p => p.waits.toNat) (w.move t m p).pc := by
  have := tally_update (fun p : Pc => p.waits.toNat) w.pc t p
  have := h.count
  simp only [move]
  omega

theorem Inv.of_move (h : w.Inv) (hsf : p = .holding ↔ m.owner = some t)
    (hoth : ∀ u, u ≠ t → (w.shared.owner = some u ↔ m.owner = some u))
    (hcnt : m.numWaiters + (w.pc t).waits.toNat = w.shared.numWaiters + p.waits.toNat)
    (hlisteners : ∀ u ∈ m.released.listeners,
      if u = t then p = .listening else u ∈ w.shared.released.listeners)
    (hwakeup : m.owner = none → 0 < m.numWaiters → Wakeup (w.move t m p)) :
    Inv (w.move t m p) where
  holder := fun u => by
    by_cases hut : u = t
    · subst hut
      simpa using hsf
    · rw [move_pc_of_ne hut, h.holder, hoth u hut, move_shared]
  count := h.count_move hcnt
  listeners := fun u hu => by
    have hls := hlisteners u hu
    by_cases hut : u = t
    · subst hut
      simpa using hls
    · rw [move_pc_of_ne hut]
      exact h.listeners u (by simpa [hut] using hls)
  wakeup := hwakeup

section
variable (h : w.Inv)
include h

omit [DecidableEq T] in
theorem Inv.not_listener (hpc : w.pc t ≠ .listening) :
    t ∉ w.shared.released.listeners := fun ht => hpc (h.listeners t ht)

theorem Inv.keep (hpc : w.pc t = q) (hown : m.owner = w.shared.owner)
    (hevt : m.released = w.shared.released) (hq : q ≠ .holding) (hp : p ≠ .holding)
    (hlis : q = .listening → t ∉ w.shared.released.listeners)
    (hcnt : m.numWaiters + q.waits.toNat = w.shared.numWaiters + p.waits.toNat)
    (hpos : m.owner = none → 0 < m.numWaiters → 0 < w.shared.numWaiters)
    (hcarries : m.owner = none → q.Carries w.shared.released t → p.Carries w.shared.released t) :
    Inv (w.move t m p) := by
  subst hpc
  refine h.of_move ?_ (fun u _ => by rw [hown]) hcnt (fun u hu => ?_) fun hnone hwt => ?_
  · rw [hown, ← h.holder]
    exact iff_of_false hp hq
  · rw [hevt] at hu
    split
    case isTrue hut => exact absurd hu (hut ▸ fun ht => hlis (h.listeners t ht) ht)
    case isFalse => exact hu
  · exact (h.wakeup (hown ▸ hnone) (hpos hnone hwt)).move hevt (hcarries hnone)

theorem Inv.take (hnone : w.shared.owner = none) (hown : m.owner = some t)
    (hevt : m.released = w.shared.released) (hlis : t ∉ w.shared.released.listeners)
    (hcnt : m.numWaiters + (w.pc t).waits.toNat = w.shared.numWaiters) :
    Inv (w.move t m .holding) := by
  refine h.of_move (by simp [hown]) (fun u hut => ?_) hcnt (fun u hu => ?_) fun hn => ?_
  · simp [hnone, hown, Ne.symm hut]
  · rw [hevt] at hu
    split
    case isTrue hut => exact absurd hu (hut ▸ hlis)
    case isFalse => exact hu
  · simp [hown] at hn

/-- The head of the loop, with the thread no longer counted. -/
theorem Inv.enter {m0 : Mutex T} (hs : m0.enter t intr = (m, p))
    (hown : m0.owner = w.shared.owner) (hevt : m0.released = w.shared.released)
    (hpc : w.pc t ≠ .holding) (hlis : t ∉ w.shared.released.listeners)
    (hcnt : m0.numWaiters + (w.pc t).waits.toNat = w.shared.numWaiters) : Inv (w.move t m p) := by
  unfold Mutex.enter at hs
  split at hs
  case h_1 hnone =>
    cases hs
    exact h.take (hown ▸ hnone) rfl hevt hlis hcnt
  rename_i owner hsm
  have hne : ∀ {P : Prop}, m0.owner = none → P := fun hn => by simp [hsm] at hn
  split at hs
  · cases hs
    refine h.keep rfl hown hevt hpc nofun (fun _ => hlis) ?_ hne hne
    change m0.numWaiters + 1 + _ = w.shared.numWaiters + 1
    omega
  · cases hs
    exact h.keep rfl hown hevt hpc nofun (fun _ => hlis) hcnt hne hne

/-- A waiter takes a pending wakeup, and carries it on. -/
theorem Inv.await {released : Event T} (hawa : w.shared.released.await = some released)
    (hpc : w.pc t ≠ .holding)
    (hwts : (w.pc t).waits) (hlis : w.pc t ≠ .listening) :
    Inv (w.move t { w.shared with released := released } .resuming) := by
  obtain ⟨-, rfl⟩ := await_cases hawa
  refine h.of_move ?_ (fun _ _ => Iff.rfl) (by rw [hwts]; rfl) (fun u hu => ?_) fun _ _ => ?_
  · rw [← h.holder]
    exact iff_of_false nofun hpc
  · split
    case isTrue hut => exact absurd hu (hut ▸ h.not_listener hlis)
    case isFalse => exact hu
  · exact .inr ⟨t, by simp⟩

theorem Inv.listen (hpc : w.pc t = .polled) (hnone : w.shared.released.await = none) :
    Inv (w.move t { w.shared with released := w.shared.released.listen t } .listening) := by
  refine h.of_move ?_ (fun _ _ => Iff.rfl) (by rw [hpc]; rfl) (fun u hu => ?_) fun hn hpos => ?_
  · rw [← h.holder, hpc]
    exact iff_of_false nofun nofun
  · split
    case isTrue => rfl
    case isFalse hut => exact (mem_listen.mp hu).resolve_right hut
  -- the wakeup on its way is with another thread
  rcases h.wakeup hn hpos with hpnd | ⟨u, hu⟩
  · exact absurd (await_eq_none.mp hnone) (Nat.pos_iff_ne_zero.mp hpnd)
  have hut : u ≠ t := by
    rintro rfl
    simp [hpc] at hu
  refine .inr ⟨u, ?_⟩
  rw [move_pc_of_ne hut]
  cases hpcu : w.pc u with
  | listening =>
    rw [hpcu] at hu
    exact fun hmem => (mem_listen.mp hmem).elim hu hut
  | resuming => trivial
  | releasing =>
    rw [hpcu] at hu
    exact hu
  | idle | acquiring | waiting | polled | holding => simp [hpcu] at hu

theorem Inv.trigger (hpc : w.pc t = .releasing true) :
    Inv (w.move t { w.shared with released := w.shared.released.trigger UINT32_MAX } .idle) := by
  refine h.of_move ?_ (fun _ _ => Iff.rfl) (by simp [hpc, Pc.waits]) (fun u hu => ?_) fun _ _ => ?_
  · rw [← h.holder, hpc]
    exact iff_of_false nofun nofun
  · simp [trigger_listeners] at hu
  cases hls : w.shared.released.listeners with
  | nil => exact .inl (trigger_pending hls (by decide))
  | cons u rest =>
    have hu := h.listeners u (by simp [hls])
    have hut : u ≠ t := by
      rintro rfl
      simp [hpc] at hu
    refine .inr ⟨u, ?_⟩
    rw [move_pc_of_ne hut, hu]
    simp [trigger_listeners]

theorem Inv.next (hs : w.shared.next t memory (w.pc t) = some (m, p)) : Inv (w.move t m p) := by
  cases hpc : w.pc t with
  | idle | holding => rw [hpc] at hs; cases hs
  | acquiring intr =>
    rw [hpc] at hs
    exact h.enter (some.inj hs) rfl rfl (by simp [hpc]) (h.not_listener (by simp [hpc]))
      (by simp [hpc, Pc.waits])
  | waiting =>
    simp only [hpc, Mutex.next] at hs
    split at hs
    case h_1 released hawa =>
      cases hs
      exact h.await hawa (by simp [hpc]) (by simp [hpc, Pc.waits]) (by simp [hpc])
    case h_2 =>
      cases hs
      exact h.keep hpc rfl rfl nofun nofun nofun rfl (fun _ => id) (fun _ => id)
  | polled =>
    simp only [hpc, Mutex.next] at hs
    split at hs
    case h_1 released hawa =>
      cases hs
      exact h.await hawa (by simp [hpc]) (by simp [hpc, Pc.waits]) (by simp [hpc])
    rename_i hnone
    split at hs
    · cases hs
      exact h.listen hpc hnone
    · cases hs
      exact h.keep hpc rfl rfl nofun nofun nofun rfl (fun _ => id) fun _ _ => trivial
  | listening =>
    simp only [hpc] at hs
    obtain ⟨hlis, ⟨⟩⟩ := ite_none_left_eq_some.mp hs
    exact h.keep hpc rfl rfl nofun nofun (fun _ => hlis) rfl (fun _ => id) fun _ _ => trivial
  | resuming =>
    rw [hpc] at hs
    have hpos : 0 < w.shared.numWaiters := by
      have := le_tally (fun p : Pc => p.waits.toNat) w.pc t
      have := h.count
      simp only [hpc, Pc.waits, Bool.toNat_true] at *
      omega
    refine h.enter (some.inj hs) rfl rfl (by simp [hpc])
      (h.not_listener (by simp [hpc])) ?_
    simp only [hpc, Pc.waits, Bool.toNat_true]
    omega
  | releasing contended =>
    simp only [hpc, Mutex.next] at hs
    split at hs
    case isTrue hcon =>
      cases hs
      exact h.trigger (by rw [hpc, hcon])
    case isFalse hcon =>
      cases hs
      exact h.keep hpc rfl rfl nofun nofun nofun rfl (fun _ => id)
        (by simp [hcon])

theorem Inv.step (hst : w.step a = some w') : w'.Inv := by
  obtain ⟨t, act⟩ := a
  obtain ⟨m, p, hs, rfl⟩ := step_cases hst
  cases act with
  | next memory => exact h.next hs
  | acquire intr =>
    obtain ⟨hpc, ⟨⟩⟩ := of_guard hs
    exact h.keep hpc rfl rfl nofun nofun nofun rfl (fun _ => id) (fun _ => id)
  | tryAcquire =>
    obtain ⟨hpc, hs⟩ := ite_none_right_eq_some.mp hs
    split at hs
    case h_1 hnone =>
      cases hs
      exact h.take hnone rfl rfl (h.not_listener (by simp [hpc])) (by simp [hpc, Pc.waits])
    case h_2 =>
      cases hs
      exact h.keep hpc rfl rfl nofun nofun nofun rfl (fun _ => id) (fun _ => id)
  | release =>
    obtain ⟨hpc, ⟨⟩⟩ := of_guard hs
    have hown := (h.holder t).mp hpc
    refine h.of_move (by simp) (fun u hut => ?_) (by simp [hpc, Pc.waits]) (fun u hu => ?_) ?_
    · simp [hown, Ne.symm hut]
    · split
      case isTrue hut => exact absurd hu (hut ▸ h.not_listener (by simp [hpc]))
      case isFalse => exact hu
    · exact fun _ hpos => .inr ⟨t, by simpa using hpos⟩

end

omit [DecidableEq T] in
theorem init_inv : (init : World T).Inv where
  holder := by simp [init, Mutex.init]
  count := ((tally_eq_zero _ _).mpr fun _ => rfl).symm
  listeners := by simp [init, Mutex.init, Event.init]
  wakeup := by simp [init, Mutex.init]

/-- **Mutexes exclude and lose no wakeup**: at most one thread holds the mutex, and it is never
left without an owner while all threads that want it are asleep and no wakeup is on its way. -/
theorem mutex_excludes_and_wakes {acts : List (T × Act)}
    (hrun : Run (Advances step) init acts w) :
    (∀ t u, w.pc t = .holding → w.pc u = .holding → t = u) ∧
      ¬(w.shared.owner = none ∧ (∃ t, (w.pc t).inside) ∧ (∀ t, (w.pc t).inside → w.Asleep t) ∧
        w.shared.released.numPending = 0 ∧ ∀ t, ¬w.Triggers t) := by
  have h := hrun.invariant (fun h hs => h.step hs) init_inv
  refine ⟨fun t u ht hu => ?_, fun ⟨hnone, ⟨t, ht⟩, hasleep, hpending, htriggers⟩ => ?_⟩
  · exact some.inj (((h.holder t).mp ht).symm.trans ((h.holder u).mp hu))
  have hpos : 0 < w.shared.numWaiters := by
    have := le_tally (fun p : Pc => p.waits.toNat) w.pc t
    have := h.count
    simp only [(hasleep t ht).1, Pc.waits, Bool.toNat_true] at *
    omega
  rcases h.wakeup hnone hpos with hp | ⟨u, hu⟩
  · exact absurd hpending (Nat.pos_iff_ne_zero.mp hp)
  cases hpc : w.pc u with
  | listening =>
    rw [hpc] at hu
    exact hu (hasleep u (by simp [hpc, Pc.inside])).2
  | resuming => simpa [hpc] using (hasleep u (by simp [hpc, Pc.inside])).1
  | releasing contended =>
    simp only [hpc] at hu
    exact htriggers u (by rw [Triggers, hpc, hu])
  | idle | acquiring | waiting | polled | holding => simp [hpc] at hu

/-- One thread takes the mutex, another falls asleep on it, and the first one releases it. -/
def handOver : List (Fin 2 × Act) :=
  [(0, .acquire true), (0, .next true), (1, .acquire true), (1, .next true), (1, .next true),
    (1, .next true), (0, .release), (0, .next true)]

theorem mutex_excludes_and_wakes_handOver :
    ∃ w, Run (Advances step) (init : World (Fin 2)) handOver w ∧ w.shared.owner = none ∧
      (w.pc 1).inside ∧
      (∀ t u, w.pc t = .holding → w.pc u = .holding → t = u) ∧
      ¬(w.shared.owner = none ∧ (∃ t, (w.pc t).inside) ∧ (∀ t, (w.pc t).inside → w.Asleep t) ∧
        w.shared.released.numPending = 0 ∧ ∀ t, ¬w.Triggers t) := by
  refine Run.exists_and₂ ⟨_, Run.of_foldlM rfl, rfl, rfl⟩ fun w hrun _ _ => ?_
  exact mutex_excludes_and_wakes hrun

end World

/-! ## Pending wakeups -/

/-- On the way into the wait, where a pending wakeup is taken. -/
def Pc.seeks : Pc → Bool
  | waiting | polled => true
  | _ => false

theorem enter_released (m : Mutex T) (t : T) (intr : Bool) :
    (m.enter t intr).1.released = m.released := by
  unfold enter
  split
  · rfl
  · split <;> rfl

namespace World

variable [Fintype T]

/-- How many waiters are on the way into the wait. -/
def seekers (w : World T) : Nat := tally (fun p => p.seeks.toNat) w.pc

/-- No more wakeups are pending than waiters are on the way to take one. -/
def Covered (w : World T) : Prop := w.shared.released.numPending ≤ w.seekers

/-- A trigger that wakes nobody meets more waiters on the way into the wait than wakeups that are
pending already. -/
def Met (w : World T) (a : T × Act) : Prop :=
  w.Triggers a.1 → w.shared.released.listeners = [] → w.shared.released.numPending < w.seekers

instance (w : World T) (a : T × Act) : Decidable (w.Met a) :=
  inferInstanceAs (Decidable (w.pc a.1 = _ → _ = [] → _))

variable [DecidableEq T] {w w' : World T} {t : T} {m : Mutex T} {p : Pc}

theorem Covered.of_le
    (h : m.released.numPending + (w.pc t).seeks.toNat ≤ w.seekers + p.seeks.toNat) :
    Covered (w.move t m p) := by
  have := tally_update (fun p : Pc => p.seeks.toNat) w.pc t p
  simp only [Covered, seekers, move] at *
  omega

theorem Covered.keep (h : w.Covered) (hpc : w.pc t = q) (hevt : m.released = w.shared.released)
    (hq : q.seeks = false) : Covered (w.move t m p) := by
  refine .of_le ?_
  rw [hevt, hpc, hq]
  exact Nat.le_add_right_of_le h

theorem Covered.await {released : Event T} (h : w.Covered) (hpc : w.pc t = q)
    (hawa : w.shared.released.await = some released) (hq : q.seeks) :
    Covered (w.move t { w.shared with released := released } .resuming) := by
  obtain ⟨hpos, rfl⟩ := await_cases hawa
  refine .of_le ?_
  simp only [Covered, hpc, hq, Bool.toNat_true] at *
  omega

theorem Covered.of_none (hnone : w.shared.released.await = none)
    (hevt : m.released.numPending = w.shared.released.numPending) : Covered (w.move t m p) := by
  simp [Covered, hevt, await_eq_none.mp hnone]

theorem Covered.trigger (h : w.Covered) (hpc : w.pc t = .releasing true)
    (hmr : w.shared.released.listeners = [] → w.shared.released.numPending < w.seekers) : Covered
      (w.move t { w.shared with released := w.shared.released.trigger UINT32_MAX } .idle) := by
  refine .of_le ?_
  simp only [hpc, Pc.seeks, Event.trigger]
  split
  case isTrue hls =>
    have := hmr hls
    dsimp only
    split <;> omega
  case isFalse => exact h

theorem Covered.enter {m0 : Mutex T} (h : w.Covered) (hpc : w.pc t = q)
    (hs : m0.enter t intr = (m, p)) (hevt : m0.released = w.shared.released)
    (hq : q.seeks = false) : Covered (w.move t m p) := by
  refine h.keep hpc ?_ hq
  rw [← hevt, ← enter_released m0 t intr, hs]

theorem Covered.step (h : w.Covered) (hmet : w.Met a) (hst : w.step a = some w') :
    w'.Covered := by
  obtain ⟨t, act⟩ := a
  obtain ⟨m, p, hs, rfl⟩ := step_cases hst
  cases act with
  | next memory =>
    simp only [Mutex.step] at hs
    cases hpc : w.pc t with
    | idle | holding => rw [hpc] at hs; cases hs
    | acquiring | resuming =>
      rw [hpc] at hs
      exact h.enter hpc (some.inj hs) rfl rfl
    | waiting =>
      simp only [hpc, Mutex.next] at hs
      split at hs
      case h_1 hawa => cases hs; exact h.await hpc hawa rfl
      case h_2 hnone => cases hs; exact .of_none hnone rfl
    | polled =>
      simp only [hpc, Mutex.next] at hs
      split at hs
      case h_1 hawa => cases hs; exact h.await hpc hawa rfl
      case h_2 hnone => split at hs <;> (cases hs; exact .of_none hnone rfl)
    | listening =>
      simp only [hpc] at hs
      obtain ⟨-, ⟨⟩⟩ := ite_none_left_eq_some.mp hs
      exact h.keep hpc rfl rfl
    | releasing contended =>
      simp only [hpc, Mutex.next] at hs
      split at hs
      case isTrue hcon =>
        cases hs
        subst hcon
        exact h.trigger hpc (hmet hpc)
      case isFalse => cases hs; exact h.keep hpc rfl rfl
  | acquire =>
    obtain ⟨hpc, ⟨⟩⟩ := of_guard hs
    exact h.keep hpc rfl rfl
  | tryAcquire =>
    obtain ⟨hpc, hs⟩ := ite_none_right_eq_some.mp hs
    split at hs <;> (cases hs; exact h.keep hpc rfl rfl)
  | release =>
    obtain ⟨hpc, ⟨⟩⟩ := of_guard hs
    exact h.keep hpc rfl rfl

/-- **Pending wakeups are taken**: as long as every trigger that wakes nobody meets a waiter to
take its wakeup, none is pending once the mutex has no owner and no thread is inside a call. -/
theorem idle_mutex_keeps_no_wakeup {acts : List (T × Act)}
    (hrun : Run (Under Met (Advances step)) init acts w) (_howner : w.shared.owner = none)
    (hidle : ∀ t, w.pc t = .idle) : w.shared.released.numPending = 0 := by
  have h := hrun.invariant (I := Covered) (fun h hs => h.step hs.1 hs.2) (Nat.zero_le _)
  have hnone : w.seekers = 0 :=
    (tally_eq_zero _ _).mpr fun t => by rw [hidle t]; rfl
  exact Nat.le_zero.mp (hnone ▸ h)

/-- A waiter takes the wakeup it finds on its way to sleep. -/
def metOnTheWay : List (Fin 2 × Act) :=
  [(0, .acquire true), (0, .next true), (1, .acquire true), (1, .next true), (0, .release),
    (0, .next true), (1, .next true), (1, .next true), (1, .release), (1, .next true)]

theorem idle_mutex_keeps_no_wakeup_metOnTheWay :
    ∃ w, Run (Under Met (Advances step)) (init : World (Fin 2)) metOnTheWay w ∧
      w.shared.owner = none ∧ (∀ t, w.pc t = .idle) ∧ w.shared.released.numPending = 0 := by
  refine Run.exists_and₂ ⟨_, Run.of_foldlM_under rfl, rfl, by decide⟩ fun w hrun hnone hidle => ?_
  exact idle_mutex_keeps_no_wakeup hrun hnone hidle

/-- Thread `1` is woken. Before it comes back from the wait thread `2` takes and releases the
mutex, and finds `1` still counted. -/
def countedAfterWakeup : List (Fin 3 × Act) :=
  [(0, .acquire true), (0, .next true), (1, .acquire true), (1, .next true), (1, .next true),
    (1, .next true), (0, .release), (0, .next true), (2, .tryAcquire), (2, .release),
    (2, .next true), (1, .next true), (1, .next true), (1, .release), (1, .next true)]

/-- The wakeup of the second release stays when all is over. -/
theorem wakeup_left_behind : ∃ w, Run (Advances step) (init : World (Fin 3)) countedAfterWakeup w ∧
    w.shared.owner = none ∧ (∀ t, w.pc t = .idle) ∧ w.shared.released.numPending = 1 :=
  ⟨_, Run.of_foldlM rfl, rfl, by decide, rfl⟩

end World

end Mutex

end Vex.Proc
