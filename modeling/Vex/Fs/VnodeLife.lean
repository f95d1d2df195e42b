import Vex.Fs.VnodeLedger

/-! Whole runs of the threads: no vnode is destroyed twice, or with references, or touched after its
destruction began, unless two threads take its count to zero before either has looked. -/

namespace Vex.Fs.Refs.World

open Vex.Lib Vcache List Option Thread

variable {n : Nat} {s s' : World n} {t : Fin n} {v w : Nat} {th th' : Thread}

/-- The vnode whose count a step takes down. -/
def drops (s : World n) (a : Fin n × Op) : Option Nat :=
  match a.2, (s.threads a.1).todo with
  | .decref v, _ => some v
  | .proceed, .decref v :: _ => some v
  | _, _ => none

/-- No thread takes a count to zero while another one that did so before has not entered
`vcache_keep` yet. -/
def Careful (s : World n) (a : Fin n × Op) : Prop :=
  ∀ v ∈ s.drops a, s.refcount v = 1 → s.keeps v = 0

instance (s : World n) (a : Fin n × Op) : Decidable (s.Careful a) :=
  decidable_of_iff (∀ v ∈ (s.drops a).toList, s.refcount v = 1 → s.keeps v = 0) (by simp [Careful])

theorem tokens_eq (s : World n) (v : Nat) : s.tokens v = s.owns v +
    (tally (fun th => th.held.count v + th.todo.count (.decref v)) s.threads + s.children v) := by
  have : (fun th : Thread => th.refs v) = fun th => (th.fresh.count v + th.lost.count v) +
      (th.held.count v + th.todo.count (.decref v)) := by
    funext th
    simp only [refs]
    omega
  rw [tokens, this, tally_add, owns]
  omega

section
variable (h : s.Sound)
include h

/-- A reference that a thread holds or owes is to a vnode that is alive and shared. -/
theorem Sound.shared (hth : s.threads t = th) (hv : th.held.count v + th.todo.count (.decref v) ≠ 0)
    :
    s.tokens v ≠ 0 ∧ s.owns v = 0 ∧ v < s.made ∧ s.dooms v = 0 ∧ s.destroyed v = 0 ∧
      v ∉ s.cache.queue := by
  have heq := tokens_eq s v
  have hle := le_tally (fun th => th.held.count v + th.todo.count (.decref v)) s.threads t
  simp only [hth] at hle
  have htn : s.tokens v ≠ 0 := by omega
  have hown : s.owns v = 0 := by
    by_contra hne
    obtain ⟨hone, htok, -⟩ := (h.fine v).own hne
    simp only [account_tokens] at hone htok
    omega
  obtain ⟨hm, hd, hde, hq⟩ := (h.fine v).of_tokens htn
  exact ⟨htn, hown, by simpa using hm, hd, hde, by simpa using hq⟩

theorem Sound.held (hv : v ∈ (s.threads t).held) :
    s.tokens v ≠ 0 ∧ s.owns v = 0 ∧ v < s.made ∧ s.dooms v = 0 ∧ s.destroyed v = 0 ∧
      v ∉ s.cache.queue :=
  h.shared (t := t) rfl (by have := count_pos_iff.2 hv; omega)

variable {fs ino : Nat}

theorem Sound.found (hf : s.cache.findNolock fs ino = some v) :
    (s.cache.entry v).isSome ∧ v < s.made ∧ s.owns v = 0 ∧ s.dooms v = 0 ∧ s.destroyed v = 0 := by
  obtain ⟨e, he, -⟩ := h.cache.find.1 hf
  have hc : (s.account v).cached := by simp [he]
  obtain ⟨hm, hrs⟩ := (h.fine v).of_cached hc
  exact ⟨by simp [he], by simpa using hm, hrs⟩

theorem Sound.private (hv : v ∈ (s.threads t).fresh ∨ v ∈ (s.threads t).lost) :
    s.tokens v = 1 ∧ v < s.made ∧ s.destroyed v = 0 ∧ s.cache.entry v = none := by
  have hown : s.owns v ≠ 0 := by
    have hle := le_tally (fun th => th.fresh.count v + th.lost.count v) s.threads t
    have heq : s.owns v = tally (fun th => th.fresh.count v + th.lost.count v) s.threads := rfl
    have : 0 < (s.threads t).fresh.count v + (s.threads t).lost.count v := by
      rcases hv with hv | hv
      · have := count_pos_iff.2 hv
        omega
      · have := count_pos_iff.2 hv
        omega
    omega
  obtain ⟨-, htok, -, hc⟩ := (h.fine v).own hown
  obtain ⟨hm, -, hde, -⟩ := (h.fine v).of_tokens (by rw [htok]; decide)
  exact ⟨htok, by simpa using hm, hde, by simpa using hc⟩

theorem Sound.doomed (htd : (s.threads t).todo = .destroy v :: rest) :
    v < s.made ∧ s.destroyed v = 0 ∧ s.refcount v = 0 ∧ s.cache.entry v = none := by
  have hdoom : s.dooms v ≠ 0 := by
    have := le_tally (fun th => th.todo.count (.destroy v)) s.threads t
    simp only [htd, count_cons_self] at this
    exact (Nat.lt_of_lt_of_le (Nat.succ_pos _) this).ne'
  obtain ⟨unmade, counted, once, dying, -, -⟩ := h.fine v
  simp only [account_made, account_keeps, account_dooms, account_destroyed, account_owns,
    account_cached] at unmade counted once dying
  have hde : s.destroyed v = 0 := by omega
  obtain ⟨htok, hc⟩ := dying (by omega)
  refine ⟨?_, hde, (counted hde).trans htok, by simpa using hc⟩
  by_contra hm
  exact hdoom (unmade (by simpa using hm)).2.2.2.1

theorem Sound.of_moves (hc : s'.cache.Ok) (hm : ∀ w, s.Moves s' w) : s'.Sound :=
  ⟨hc, fun w => (h.fine w).moves (hm w)⟩

theorem Sound.get (hg : s.cache.get fs ino = some (v, c)) :
    ({ s with cache := c }.takeRef t (s.threads t) v).Sound := by
  obtain ⟨w, hf, ⟨⟩⟩ := map_eq_some_iff.1 hg
  obtain ⟨hc, hm, hown, hd, hde⟩ := h.found hf
  obtain ⟨e, he, -⟩ := h.cache.find.1 hf
  exact h.of_moves (h.cache.takeNolock he) (moves_takeRef rfl rfl (fun _ => rfl) (fun _ => rfl)
    (fun _ => takeNolock_isSome) (fun _ => h.cache.mem_takeNolock) hm hown (by omega))

theorem Sound.incref (hv : v ∈ (s.threads t).held) :
    (s.takeRef t (s.threads t) v).Sound := by
  obtain ⟨-, hown, hm, hd, hde, hq⟩ := h.held hv
  refine h.of_moves h.cache (moves_takeRef rfl rfl (fun _ => rfl) (fun _ => rfl)
    (fun _ => rfl) (fun w => ?_) hm hown (by omega))
  exact ⟨fun hw => ⟨hw, fun hwv => hq (hwv ▸ hw)⟩, And.left⟩

theorem Sound.insert (hv : v ∈ (s.threads t).fresh) :
    (s.insertStep t (s.threads t) v room).Sound := by
  obtain ⟨htok, hm, hde, he⟩ := h.private (.inl hv)
  have hcnt := count_erase_add hv
  -- A vnode that lost stays the thread's own.
  have hrf : ∀ w, refs { s.threads t with
      fresh := (s.threads t).fresh.erase v
      lost := v :: (s.threads t).lost } w = (s.threads t).refs w := fun w => by
    have := hcnt w
    simp only [refs, count_cons, beq_iff_eq]
    omega
  have how : ∀ w, ((s.threads t).fresh.erase v).count w + (v :: (s.threads t).lost).count w =
      (s.threads t).fresh.count w + (s.threads t).lost.count w := fun w => by
    have := hcnt w
    simp only [count_cons, beq_iff_eq]
    omega
  cases room with
  | false =>
    refine h.of_moves h.cache fun w => moves_none ?_
    apply account_eq (rfl : s.threads t = s.threads t) rfl
    case htks => rw [hrf w]; rfl
    case how => exact congrArg (s.owns w + ·) (how w).symm
    all_goals rfl
  | true =>
    simp only [insertStep]
    cases hf : s.cache.findNolock (s.fs v) (s.ino v) with
    | none =>
      have hr : s.cache.insert v (s.fs v) (s.ino v) false =
          (v, s.cache.bucketPush v ⟨s.fs v, s.ino v, false, false⟩) := by
        simp only [Vcache.insert, hf]
      rw [hr, if_pos rfl]
      refine h.of_moves (h.cache.bucketPush he rfl hf) (moves_publish rfl hv (fun w => ?_) rfl)
      by_cases hw : w = v <;> simp [bucketPush, hw]
    | some w =>
      have hr : s.cache.insert v (s.fs v) (s.ino v) false = (w, s.cache.takeNolock w) := by
        simp only [Vcache.insert, hf]
      obtain ⟨hc, hm, hown, hd, hde⟩ := h.found hf
      have hne : w ≠ v := by
        rintro rfl
        simp [he] at hc
      obtain ⟨e, he, -⟩ := h.cache.find.1 hf
      have hlive : s.dooms w + s.destroyed w = 0 := by omega
      rw [hr, if_neg hne]
      exact h.of_moves (h.cache.takeNolock he) (moves_takeRef rfl rfl hrf how
        (fun _ => takeNolock_isSome) (fun _ => h.cache.mem_takeNolock) hm hown hlive)

theorem Sound.remove (hv : v ∈ (s.threads t).held) :
    ({ s with cache := s.cache.remove v } : World n).Sound := by
  obtain ⟨htok, -, -, -, -, hq⟩ := h.held hv
  refine h.of_moves ?_ (moves_remove htok)
  cases he : s.cache.entry v with
  | none => simpa only [Vcache.remove, he] using h.cache
  | some e =>
    simp only [Vcache.remove, he]
    refine h.cache.bucketUnlink he ?_
    simpa [h.cache.queued, he] using hq

theorem Sound.alloc {parent : Option Nat} (hp : ∀ p ∈ parent, p ∈ (s.threads t).held) :
    (s.allocStep t (s.threads t) fs ino parent).Sound := by
  have hd : s.destroyed s.made = 0 := ((h.fine s.made).unmade (by simp)).2.2.2.2.1
  refine h.of_moves ?_ (moves_alloc rfl hd fun p hpp => ?_)
  · cases parent <;> exact h.cache
  · obtain ⟨-, hown, hm, hd, hde, hq⟩ := h.held (hp p hpp)
    exact ⟨hm, hown, by omega, hq⟩

theorem Sound.proceed {max : Nat} (hcare : s.Careful (t, .proceed)) :
    (s.proceedStep max t (s.threads t)).Sound := by
  cases htd : (s.threads t).todo with
  | nil => simpa only [proceedStep, htd] using h
  | cons task rest =>
    cases task with
    | decref v =>
      simp only [proceedStep, htd]
      have hcnt : (s.threads t).todo.count (.decref v) ≠ 0 := by simp [htd]
      obtain ⟨htok, hown, -⟩ := h.shared (t := t) (v := v) rfl (by omega)
      refine h.of_moves h.cache (moves_dropRef rfl (fun w => ?_) (fun w => ?_) (fun w => ?_)
        (fun _ => rfl) hown htok (hcare v (by simp [drops, htd])))
      · simp only [refs, htd, count_cons, beq_iff_eq, Task.decref.injEq]
        omega
      · simp [htd]
      · simp [htd]
    | destroy v =>
      simp only [proceedStep, htd]
      obtain ⟨hm, hde, -⟩ := h.doomed htd
      exact h.of_moves h.cache (moves_destroy rfl htd hm hde)
    | keep v =>
      refine h.of_moves ?_ (moves_keep h.cache rfl htd)
      simp only [proceedStep, htd]
      split
      case h_1 => exact h.cache
      case h_2 => exact h.cache
      case h_3 c' evicted hk =>
        rw [keep_queued hk] at hk
        exact (h.cache.keep hk).1

theorem Sound.discard (hv : v ∈ (s.threads t).lost) :
    (s.beginDestroy t { s.threads t with lost := (s.threads t).lost.erase v } v).Sound := by
  obtain ⟨-, hm, hde, -⟩ := h.private (.inr hv)
  exact h.of_moves h.cache (moves_discard rfl hv hm hde)

theorem Sound.decref (hcare : s.Careful (t, .decref v)) (hv : v ∈ (s.threads t).held) :
    (s.dropRef t { s.threads t with held := (s.threads t).held.erase v } v).Sound := by
  obtain ⟨htok, hown, -⟩ := h.held hv
  refine h.of_moves h.cache (moves_dropRef rfl (fun w => ?_) (fun _ => rfl) (fun _ => rfl)
    (fun _ => rfl) hown htok (hcare v (by simp [drops])))
  have := count_erase_add hv w
  simp only [refs]
  omega

theorem Sound.step {max : Nat} (hs : Under Careful (Advances (World.step max)) s a s') :
    s'.Sound := by
  obtain ⟨t, op⟩ := a
  obtain ⟨hcare, hs⟩ := hs
  obtain ⟨halw, ⟨⟩⟩ := ite_none_right_eq_some.1 hs
  cases op with
  | proceed => exact h.proceed hcare
  | alloc fs ino parent => exact h.alloc halw.2
  | incref v => exact h.incref halw.2
  | decref v => exact h.decref hcare halw.2
  | get fs ino =>
    simp only [after]
    split
    case h_1 => exact h
    case h_2 hg => exact h.get hg
  | insert v room => exact h.insert halw.2
  | remove v => exact h.remove halw.2
  | discard v => exact h.discard halw.2

end

theorem init_sound (n : Nat) : (init n).Sound := by
  refine ⟨empty_ok, fun v => ?_⟩
  have hacc : (init n).account v = ⟨false, 0, 0, 0, 0, 0, 0, false, false⟩ := by
    ext <;> simp [tokens, children, owns, keeps, dooms, tally, init, refs, empty]
  rw [hacc]
  constructor <;> simp

/-- What the steps of a world can and cannot do to a vnode that goes. -/
structure Safe (max : Nat) (s : World n) : Prop where
  once : ∀ v, s.destroyed v ≤ 1
  /-- No step touches a vnode after its destruction began. -/
  untouched : ∀ {a s'}, s.step max a = some s' → ∀ v ∈ s.touched max a, s.destroyed v = 0
  /-- Destruction begins only without references and out of the cache. -/
  unused : ∀ {a s' v}, s.step max a = some s' → s.destroys a = some v →
    s.refcount v = 0 ∧ s.cache.entry v = none
  /-- A vnode that lost was never shared. -/
  alone : ∀ {t v s'}, s.step max (t, .discard v) = some s' →
    s.refcount v = 1 ∧ s.tokens v = 1 ∧ s.cache.entry v = none

theorem Sound.untouched {max : Nat} (h : s.Sound) (halw : Allowed (s.threads t) op)
    (hv : v ∈ s.touched max (t, op)) : s.destroyed v = 0 := by
  have hfnd : ∀ {fs ino}, v ∈ (s.cache.findNolock fs ino).toList → s.destroyed v = 0 :=
    fun hf => (h.found (mem_toList.1 hf)).2.2.2.2
  have hheld : ∀ {w}, w ∈ (s.threads t).held → s.destroyed w = 0 := fun hw => (h.held hw).2.2.2.2.1
  cases op with
  | alloc fs ino parent => exact hheld (halw.2 v (mem_toList.1 hv))
  | incref w => exact mem_singleton.1 hv ▸ hheld halw.2
  | decref w => exact mem_singleton.1 hv ▸ hheld halw.2
  | remove w => exact mem_singleton.1 hv ▸ hheld halw.2
  | discard w => exact mem_singleton.1 hv ▸ (h.private (.inr halw.2)).2.2.1
  | get fs ino => exact hfnd hv
  | insert w room =>
    rcases mem_cons.1 hv with rfl | hv
    · exact (h.private (.inl halw.2)).2.2.1
    · exact hfnd hv
  | proceed =>
    cases htd : (s.threads t).todo with
    | nil => exact absurd htd halw
    | cons task rest =>
      cases task with
      | decref w =>
        obtain rfl : v = w := by simpa [touched, htd] using hv
        exact (h.shared (t := t) rfl (by simp [htd])).2.2.2.2.1
      | destroy w =>
        obtain rfl : v = w := by simpa [touched, htd] using hv
        exact (h.doomed htd).2.1
      | keep w =>
        have hw : s.destroyed w = 0 := by
          have hkeep : s.keeps w ≠ 0 := todo_ne_zero rfl htd
          have := (h.fine w).once
          simp only [account_keeps, account_destroyed] at this
          omega
        simp only [touched, htd] at hv
        split at hv
        case h_1 c' evicted hk =>
          rw [keep_queued hk] at hk
          obtain ⟨-, -, hev, -⟩ := h.cache.keep hk
          rcases mem_cons.1 hv with rfl | hv
          · exact hw
          rcases hev v hv with hq | rfl
          · have hc := ((h.fine v).waiting (by simpa using hq)).1
            exact ((h.fine v).of_cached hc).2.2.2
          · exact hw
        case h_2 => exact mem_singleton.1 hv ▸ hw

theorem Sound.safe {max : Nat} (h : s.Sound) : s.Safe max := by
  refine ⟨fun v => ?_, fun {a s'} hs v hv => ?_, fun {a s' v} hs hd => ?_, fun {t v s'} hs => ?_⟩
  · have := (h.fine v).once
    simp only [account_destroyed] at this
    omega
  · exact h.untouched (ite_none_right_eq_some.1 hs).1 hv
  · unfold destroys at hd
    split at hd
    case h_1 v' rest hop htd =>
      cases hd
      exact (h.doomed htd).2.2
    case h_2 => cases hd
  · obtain ⟨htok, -, hde, he⟩ := h.private (.inr (ite_none_right_eq_some.1 hs).1.2)
    exact ⟨((h.fine v).counted hde).trans htok, htok, he⟩

/-- **Each vnode is destroyed once.** Whatever the threads do, as long as no count goes to zero
twice before `vcache_keep` has seen the first time. -/
theorem destroyed_once {max : Nat} {as : List (Fin n × Op)}
    (hrun : Run (Under Careful (Advances (World.step max))) (init n) as s) : s.Safe max :=
  (hrun.invariant (fun h hs => h.step hs) (init_sound n)).safe

/-- One thread makes a vnode and drops it, the other finds it again, drops it and evicts it. -/
def orderlyRun : List (Fin 2 × Op) :=
  [(0, .alloc 1 7 none), (0, .insert 0 true), (0, .decref 0), (1, .get 1 7), (0, .proceed),
    (1, .decref 0), (1, .proceed), (1, .proceed)]

theorem destroyed_once_orderlyRun : ∃ s,
    Run (Under Careful (Advances (World.step 0))) (init 2) orderlyRun s ∧
      s.destroyed 0 = 1 ∧ s.Safe 0 := by
  refine Run.exists_and (Run.exists_of_any Run.of_foldlM_under (by decide +kernel)) ?_
  intro s hrun _
  exact destroyed_once hrun

/-- The first thread takes the count to zero; before it enters `vcache_keep`, the second one finds
the vnode, removes it from the cache, as an unlink does, and drops it. -/
def racingRun : List (Fin 2 × Op) :=
  [(0, .alloc 1 7 none), (0, .insert 0 true), (0, .decref 0), (1, .get 1 7), (1, .remove 0),
    (1, .decref 0), (1, .proceed), (1, .proceed)]

/-- The first thread then looks at the freed vnode, and destroys it again. -/
theorem destroyed_twice :
    (∃ s s', Run (Advances (World.step 64)) (init 2) racingRun s ∧ s.destroyed 0 = 1 ∧
      s.step 64 (0, .proceed) = some s' ∧ 0 ∈ s.touched 64 (0, .proceed)) ∧
    ∃ s, Run (Advances (World.step 64)) (init 2)
      (racingRun ++ [(0, .proceed), (0, .proceed)]) s ∧ s.destroyed 0 = 2 := by
  exact ⟨⟨_, _, Run.of_foldlM rfl, rfl, rfl, by decide⟩, _, Run.of_foldlM rfl, rfl⟩

end Vex.Fs.Refs.World
