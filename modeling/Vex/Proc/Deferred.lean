import Mathlib.Data.List.Nodup
import Vex.Lib.Threads

/-! Deferred triggers (`event.c`): the list of deferrals that any hart pushes to and any hart takes
as a whole, on any number of harts. Every atomic operation, every store to `next` and every trigger
is one step. -/

namespace Vex.Proc.Deferred

open Lib Function List

variable {T D : Type}

/-- Where a hart is. -/
inductive Pc (D : Type)
  | idle
  /-- In `event_trigger_deferred`, before the exchange of `queued`. -/
  | queueing (d : D)
  /-- Before the load of `deferred_head`. -/
  | loading (d : D)
  /-- At the head of the loop, with the head of the list as last seen. -/
  | linking (d : D) (head : Option D)
  /-- Before the exchange of `deferred_head`. -/
  | swapping (d : D) (head : Option D)
  /-- In `event_run_deferred`, at the head of the loop. -/
  | draining (it : Option D)
  /-- Before the store to `queued`. -/
  | clearing (it : D) (next : Option D)
  | triggering (it : D) (next : Option D)
  deriving DecidableEq

structure Shared (D : Type) where
  head : Option D
  queued : D → Bool
  next : D → Option D

inductive Act (D : Type)
  | triggerDeferred (d : D)
  | runDeferred
  /-- The next step; a weak exchange may fail for no reason. -/
  | next (spurious : Bool)

def next [DecidableEq D] (s : Shared D) (spurious : Bool) : Pc D → Option (Shared D × Pc D)
  | .idle => none
  | .queueing d => some ({ s with queued := update s.queued d true },
      if s.queued d then .idle else .loading d)
  | .loading d => some (s, .linking d s.head)
  | .linking d head => some ({ s with next := update s.next d head }, .swapping d head)
  | .swapping d head =>
    if s.head = head ∧ ¬spurious then some ({ s with head := some d }, .idle)
    else some (s, .linking d s.head)
  | .draining none => some (s, .idle)
  | .draining (some it) => some (s, .clearing it (s.next it))
  | .clearing it next =>
    some ({ s with queued := update s.queued it false }, .triggering it next)
  | .triggering _ next => some (s, .draining next)

def step [DecidableEq D] (_ : T) (s : Shared D) (pc : Pc D) : Act D → Option (Shared D × Pc D)
  | .triggerDeferred d => if pc = .idle then some (s, .queueing d) else none
  | .runDeferred => if pc = .idle then some ({ s with head := none }, .draining s.head) else none
  | .next spurious => next s spurious pc

abbrev World (T D : Type) := Threads T (Shared D) (Pc D)

/-- Following `next` gives the list, and comes to its end. -/
def Linked (next : D → Option D) : Option D → List D → Prop
  | it, [] => it = none
  | it, d :: l => it = some d ∧ Linked next (next d) l

/-- The deferrals that a hart has: the one it pushes, or the rest of the list it took. -/
def Holds (next : D → Option D) : Pc D → List D → Prop
  | .idle, l | .queueing _, l => l = []
  | .loading d, l | .linking d _, l => l = [d]
  | .swapping d head, l => l = [d] ∧ next d = head
  | .draining it, l | .triggering _ it, l => Linked next it l
  | .clearing it rest, l => ∃ l', l = it :: l' ∧ Linked next rest l'

/-- The hart will trigger the event, or queue the deferral if it is not queued yet. -/
def Pc.Due (d : D) : Pc D → Prop
  | queueing d' => d' = d
  | triggering it _ => it = d
  | _ => False

attribute [local simp] Pc.Due

namespace World

def step [DecidableEq T] [DecidableEq D] : World T D → T × Act D → Option (World T D) :=
  Threads.step Deferred.step

def init : World T D := ⟨⟨none, fun _ => false, fun _ => none⟩, fun _ => .idle⟩

/-- A deferred trigger of `d` is still to be followed by the trigger. -/
def Owed (d : D) (w : World T D) : Prop := w.shared.queued d ∨ ∃ t, (w.pc t).Due d

/-- The step is a trigger of the event of `d`. -/
def Triggers (d : D) (w : World T D) (a : T × Act D) : Prop :=
  ∃ spurious next, a.2 = .next spurious ∧ w.pc a.1 = .triggering d next

/-- Every queued deferral is on the list or with one hart, once. -/
structure Placed (w : World T D) (list : List D) (chain : T → List D) : Prop where
  linked : Linked w.shared.next w.shared.head list
  holds : ∀ t, Holds w.shared.next (w.pc t) (chain t)
  nodup : ∀ t, (list ++ chain t).Nodup
  apart : ∀ {t u d}, d ∈ chain t → d ∈ chain u → t = u
  queued : ∀ d, w.shared.queued d ↔ d ∈ list ∨ ∃ t, d ∈ chain t

end World

section

variable {next next' : D → Option D} {it : Option D} {l : List D}

theorem Linked.congr (h : Linked next it l) (heq : ∀ d ∈ l, next' d = next d) :
    Linked next' it l := by
  induction l generalizing it with
  | nil => exact h
  | cons d l ih =>
    refine ⟨h.1, ih ?_ fun d' hd' => heq d' (mem_cons_of_mem _ hd')⟩
    rw [heq d mem_cons_self]
    exact h.2

theorem Holds.congr (h : Holds next pc l) (heq : ∀ d ∈ l, next' d = next d) : Holds next' pc l := by
  cases pc with
  | draining | triggering => exact Linked.congr h heq
  | clearing it rest =>
    obtain ⟨l', rfl, h⟩ := h
    exact ⟨l', rfl, h.congr fun d hd => heq d (mem_cons_of_mem _ hd)⟩
  | swapping d head =>
    obtain ⟨rfl, h⟩ := h
    exact ⟨rfl, (heq d mem_cons_self).trans h⟩
  | idle | queueing | loading | linking => exact h

end

namespace World

variable [DecidableEq T] {w w' : World T D} {list b c : List D} {chain : T → List D} {t : T}
  {s : Shared D} {pc : Pc D}

/-- A step of `t`, after which the list is `b` and `t` has `c`. -/
theorem Placed.move (h : w.Placed list chain) (hlkd : Linked s.next s.head b)
    (hhd : Holds s.next pc c) (hndp : (b ++ c).Nodup)
    (hnx : ∀ d, d ∉ chain t → s.next d = w.shared.next d)
    (hque : ∀ d, s.queued d = true ↔ d ∈ b ++ c ∨ w.shared.queued d = true ∧ d ∉ list ++ chain t)
    (hfre : ∀ d ∈ b ++ c, w.shared.queued d = true → d ∈ list ++ chain t) :
    ∃ list' chain', Placed (w.move t s pc) list' chain' := by
  -- what the other harts have is neither with `t` nor on the list, before or after
  have hoth : ∀ {u d}, u ≠ t → d ∈ chain u → d ∉ list ++ chain t := by
    have := h.nodup
    have := @h.apart
    grind
  have hold : ∀ {u d}, u ≠ t → d ∈ chain u → d ∉ b ++ c := fun hu hd hd' =>
    hoth hu hd (hfre _ hd' ((h.queued _).mpr (.inr ⟨_, hd⟩)))
  refine ⟨b, update chain t c, hlkd, fun u => ?_, fun u => ?_, fun {u u' d} => ?_, fun d => ?_⟩
  · by_cases hu : u = t
    · subst hu
      simpa using hhd
    · rw [Threads.move_pc_of_ne hu, update_of_ne hu]
      refine (h.holds u).congr fun d hd => hnx d fun hd' => ?_
      exact hoth hu hd (mem_append_right _ hd')
  · have := h.nodup u
    grind
  · have := @h.apart
    grind
  · rw [Threads.move_shared, hque d, h.queued d]
    constructor
    · rintro (hd | ⟨hd | ⟨u, hd⟩, hnot⟩)
      · exact (mem_append.mp hd).imp_right fun hd => ⟨t, by simpa using hd⟩
      · exact absurd (mem_append_left _ hd) hnot
      · have hu : u ≠ t := fun hu => hnot (mem_append_right _ (hu ▸ hd))
        exact .inr ⟨u, by rwa [update_of_ne hu]⟩
    · rintro (hd | ⟨u, hd⟩)
      · exact .inl (mem_append_left _ hd)
      by_cases hu : u = t
      · subst hu
        exact .inl (mem_append_right _ (by simpa using hd))
      · rw [update_of_ne hu] at hd
        exact .inr ⟨.inr ⟨u, hd⟩, hoth hu hd⟩

/-- A step of `t` that takes no deferral to another place. -/
theorem Placed.stay (h : w.Placed list chain) (hlkd : Linked s.next s.head list)
    (hhd : Holds s.next pc (chain t)) (hnx : ∀ d, d ∉ chain t → s.next d = w.shared.next d)
    (hque : s.queued = w.shared.queued) :
    ∃ list' chain', Placed (w.move t s pc) list' chain' := by
  refine h.move hlkd hhd (h.nodup t) hnx (fun d => ?_) fun _ hd _ => hd
  have := h.queued d
  grind

/-- A step of `t` after which `d` is queued or due, if it was with `t` or on the list. -/
theorem Owed.move (h : w.Owed d)
    (hkeep : w.shared.queued d ∨ (w.pc t).Due d → s.queued d ∨ pc.Due d) :
    Owed d (w.move t s pc) := by
  rcases h with hq | ⟨u, hu⟩
  · exact (hkeep (.inl hq)).imp_right fun h => ⟨t, by simpa using h⟩
  by_cases hut : u = t
  · subst hut
    exact (hkeep (.inr hu)).imp_right fun h => ⟨u, by simpa using h⟩
  · exact .inr ⟨u, by rwa [Threads.move_pc_of_ne hut]⟩

variable [DecidableEq D]

theorem Placed.next (h : w.Placed list chain)
    (hs : Deferred.next w.shared spurious (w.pc t) = some (s, pc)) :
    ∃ list' chain', Placed (w.move t s pc) list' chain' := by
  have hhd := h.holds t
  have hndp := h.nodup t
  have hque := h.queued
  cases hpc : w.pc t with
  | idle => rw [hpc] at hs; cases hs
  | queueing d =>
    rw [hpc] at hs hhd
    cases hs
    have hnil : chain t = [] := hhd
    by_cases hd : w.shared.queued d
    · exact h.stay h.linked (by simpa [hd, Holds] using hnil) (fun _ _ => rfl) (by simp [← hd])
    refine h.move (c := [d]) h.linked (by simp [hd, Holds]) ?_ (fun _ _ => rfl) (fun d' => ?_)
      fun d' hd' hq => ?_
    · grind
    · grind
    · grind
  | loading d =>
    rw [hpc] at hs hhd
    cases hs
    exact h.stay h.linked hhd (fun _ _ => rfl) rfl
  | linking d head =>
    rw [hpc] at hs hhd
    cases hs
    have hone : chain t = [d] := hhd
    have hnx : ∀ d', d' ≠ d → update w.shared.next d head d' = w.shared.next d' :=
      fun d' hd' => update_of_ne hd' ..
    refine h.stay (h.linked.congr fun d' hd' => hnx d' ?_) ⟨hone, update_self ..⟩
      (fun d' hd' => hnx d' (by simpa [hone] using hd')) rfl
    grind
  | swapping d head =>
    rw [hpc] at hs
    simp only [Deferred.next] at hs
    obtain ⟨hone, hnx⟩ : chain t = [d] ∧ w.shared.next d = head := by
      simpa [hpc, Holds] using hhd
    split at hs
    case isTrue hhe =>
      cases hs
      refine h.move (b := d :: list) ⟨rfl, ?_⟩ rfl ?_ (fun _ _ => rfl) (fun d' => ?_)
        fun d' hd' _ => ?_
      · rw [hnx, ← hhe.1]
        exact h.linked
      · grind
      · grind
      · grind
    case isFalse =>
      cases hs
      exact h.stay h.linked hone (fun _ _ => rfl) rfl
  | draining it =>
    rw [hpc] at hhd
    cases it with
    | none =>
      rw [hpc] at hs
      cases hs
      refine h.stay h.linked ?_ (fun _ _ => rfl) rfl
      cases hl : chain t with
      | nil => rfl
      | cons d l => rw [hl] at hhd; cases hhd.1
    | some it =>
      rw [hpc] at hs
      cases hs
      refine h.stay h.linked ?_ (fun _ _ => rfl) rfl
      cases hl : chain t with
      | nil => rw [hl] at hhd; cases hhd
      | cons d l =>
        rw [hl] at hhd
        cases hhd.1
        exact ⟨l, rfl, hhd.2⟩
  | clearing it rest =>
    rw [hpc] at hs hhd
    obtain ⟨l, hl, hlkd⟩ := hhd
    cases hs
    refine h.move h.linked hlkd ?_ (fun _ _ => rfl) (fun d' => ?_) fun d' hd' _ => ?_
    · grind
    · grind
    · grind
  | triggering it rest =>
    rw [hpc] at hs hhd
    cases hs
    exact h.stay h.linked hhd (fun _ _ => rfl) rfl

theorem Placed.step (h : w.Placed list chain) (hst : w.step a = some w') :
    ∃ list' chain', w'.Placed list' chain' := by
  obtain ⟨t, act⟩ := a
  obtain ⟨s, pc, hs, rfl⟩ := Threads.step_cases hst
  cases act with
  | triggerDeferred d =>
    obtain ⟨hpc, ⟨⟩⟩ := of_guard hs
    have hnil : chain t = [] := by simpa [hpc, Holds] using h.holds t
    exact h.stay h.linked hnil (fun _ _ => rfl) rfl
  | runDeferred =>
    obtain ⟨hpc, ⟨⟩⟩ := of_guard hs
    have hnil : chain t = [] := by simpa [hpc, Holds] using h.holds t
    have hndp := h.nodup t
    have hque := h.queued
    refine h.move (b := []) rfl h.linked ?_ (fun _ _ => rfl) ?_ ?_
    · grind
    · grind
    · grind
  | next spurious => exact h.next hs

/-- **Step lemma.** A deferral stays owed up to the step that triggers its event. -/
theorem Owed.step (h : w.Owed d) (hst : w.step a = some w') : w'.Owed d ∨ w.Triggers d a := by
  by_cases htrigger : w.Triggers d a
  · exact .inr htrigger
  obtain ⟨t, act⟩ := a
  obtain ⟨s, pc, hs, rfl⟩ := Threads.step_cases hst
  refine .inl (h.move fun hd => ?_)
  cases act with
  | triggerDeferred d' =>
    obtain ⟨hpc, ⟨⟩⟩ := of_guard hs
    exact .inl (by simpa [hpc] using hd)
  | runDeferred =>
    obtain ⟨hpc, ⟨⟩⟩ := of_guard hs
    simpa [hpc] using hd
  | next spurious =>
    have hnot : ∀ next, w.pc t ≠ .triggering d next := fun next h => htrigger ⟨_, _, rfl, h⟩
    change Deferred.next w.shared spurious (w.pc t) = some (s, pc) at hs
    generalize w.pc t = place at hs hd hnot
    cases place with
    | idle => cases hs
    | loading | linking => cases hs; simpa using hd
    | draining it => cases it <;> cases hs <;> simpa using hd
    | swapping d' head =>
      simp only [Deferred.next] at hs
      split at hs <;> cases hs <;> simpa using hd
    | queueing | clearing | triggering =>
      cases hs
      grind [Pc.Due]

/-- **No deferred trigger is lost**: in every state the deferrals that are queued are each in one
place, so that the list has an end and none is dropped or there twice; and every call that begins
in such a state is followed by a step that triggers its event, before a state where no call is in
progress and the list is empty. -/
theorem no_deferred_trigger_lost {acts : List (T × Act D)}
    (hrun : Run (Advances step) init acts w) :
    (∃ list chain, w.Placed list chain) ∧
      ∀ t d w1 later w', w.step (t, .triggerDeferred d) = some w1 →
        Run (Advances step) w1 later w' → (∀ u, w'.pc u = .idle) → w'.shared.head = none →
        ∃ pre a post m, later = pre ++ a :: post ∧ Run (Advances step) w1 pre m ∧
          m.Triggers d a := by
  have hplaced {w w' : World T D} {acts : List (T × Act D)}
      (hrun : Run (Advances step) w acts w') :=
    hrun.invariant (I := fun w => ∃ list chain, w.Placed list chain) fun ⟨_, _, h⟩ hs => h.step hs
  have h := hplaced hrun
    ⟨[], fun _ => [], rfl, fun _ => rfl, by simp, by simp, by simp [init]⟩
  refine ⟨h, fun t d w1 later w' hcall hlater hidle hhead => ?_⟩
  obtain ⟨list, chain, h'⟩ := hplaced (.cons hcall hlater) h
  have hnil : list = [] := by
    cases hl : list with
    | nil => rfl
    | cons d l =>
      have := hl ▸ h'.linked
      cases hhead.symm.trans this.1
  have hchain : ∀ t, chain t = [] := fun t => by simpa [hidle t, Holds] using h'.holds t
  have howed : w1.Owed d := by
    obtain ⟨s, pc, hs, rfl⟩ := Threads.step_cases hcall
    obtain ⟨-, ⟨⟩⟩ := of_guard hs
    exact .inr ⟨t, by simp⟩
  refine (hlater.upTo (fun h hs => h.step hs) howed).resolve_left ?_
  simp [Owed, h'.queued d, hnil, hchain, hidle]

/-- The deferral is taken off the list, and its event is still to be triggered. -/
def takenOff : List (Fin 2 × Act (Fin 1)) :=
  [(0, .triggerDeferred 0), (0, .next false), (0, .next false), (0, .next false), (0, .next false),
    (1, .runDeferred), (1, .next false), (1, .next false)]

/-- What follows when it is queued again then. -/
def queuedAgain : List (Fin 2 × Act (Fin 1)) :=
  [(0, .next false), (0, .next false), (0, .next false), (0, .next false), (1, .next false),
    (1, .next false), (1, .runDeferred), (1, .next false), (1, .next false), (1, .next false),
    (1, .next false)]

theorem no_deferred_trigger_lost_queuedAgain :
    ∃ w w1 w', Run (Advances step) (init : World (Fin 2) (Fin 1)) takenOff w ∧
      w.step (0, .triggerDeferred 0) = some w1 ∧ Run (Advances step) w1 queuedAgain w' ∧
      (∀ u, w'.pc u = .idle) ∧ w'.shared.head = none ∧
      ∃ pre a post m, queuedAgain = pre ++ a :: post ∧ Run (Advances step) w1 pre m ∧
        m.Triggers 0 a := by
  have hrun : Run (Advances step) init takenOff _ := Run.of_foldlM rfl
  refine ⟨_, _, _, hrun, rfl, Run.of_foldlM rfl, by decide, rfl, ?_⟩
  exact (no_deferred_trigger_lost hrun).2 0 0 _ _ _ rfl (Run.of_foldlM rfl) (by decide) rfl

end World

end Vex.Proc.Deferred
