import Vex.Lib.Run
import Vex.Proc.Signal

/-! No deliverable signal is stranded: whoever could take a pending signal, somebody among them has
`THREAD_WORK_SIGNAL` and will look. Threads that leave or that work out anew what they have to
deliver keep it so; a thread that blocks a signal it alone was told about does not. -/

namespace Vex.Proc.Signal

open Lib BitVec

namespace Process

variable {T : Type}

/-- A thread of the process that is not leaving and does not block the signal with number
`i + 1`. -/
structure Takes (p : Process T) (i : Nat) (t : T) : Prop where
  mem : t ∈ p.threads
  stays : p.leaving t = false
  unblocked : (p.sigs t).blocked.getLsbD i = false

/-- A signal that is pending on the process, and that some thread could take, has such a thread
with `THREAD_WORK_SIGNAL`. -/
def Told (p : Process T) : Prop :=
  ∀ i, p.sigPending.getLsbD i → (∃ t, p.Takes i t) → ∃ t, p.Takes i t ∧ (p.sigs t).workSignal

/-- A thread with a signal pending that it does not block has `THREAD_WORK_SIGNAL`. -/
def ToldSelf (p : Process T) : Prop :=
  ∀ t ∈ p.threads, ∀ i, (p.sigs t).pending.getLsbD i → (p.sigs t).blocked.getLsbD i = false →
    (p.sigs t).workSignal

/-- No thread has left without the `signal_retarget` that follows. -/
def Settled (p : Process T) : Prop := p.owed = 0 ∧ p.execThread = none

/-- The step leaves no signal behind: a thread blocks a signal that is pending on the process only
if the others who could take it have one among them that is told; and the first thread of a process
finds nothing pending. -/
def LeavesNone (p : Process T) : Act T → Prop
  | .mask t how set => ∀ i, p.sigPending.getLsbD i → p.Takes i t →
      (newMask (p.sigs t).blocked how set).getLsbD i →
      (∃ u, u ≠ t ∧ p.Takes i u) → ∃ u, u ≠ t ∧ p.Takes i u ∧ (p.sigs u).workSignal
  | .first _ => p.exiting ∨ p.execThread.isSome ∨ p.sigPending = 0
  | _ => True

structure Inv (p : Process T) : Prop where
  told : p.Settled → p.Told
  self : p.ToldSelf
  gone : p.exiting → ∀ t ∈ p.threads, p.leaving t

variable {p p' q : Process T} {t u : T} {r : Sigs} {i : Nat}

theorem and_not_ne_zero {b : SigSet} (ha : a.getLsbD i) (hb : b.getLsbD i = false) :
    a &&& ~~~b ≠ 0 := by
  intro h0
  have := congrArg (·.getLsbD i) h0
  simp only [getLsbD_and, getLsbD_not, ha, hb, lt_of_getLsbD ha] at this
  simp at this

theorem getLsbD_of_and {b : SigSet} (h : (a &&& b).getLsbD i) : a.getLsbD i := by
  rw [getLsbD_and, Bool.and_eq_true] at h
  exact h.1

/-- **Transfer.** A step that makes no signal pending, nobody able to take one, and takes nobody
who was told away, leaves none behind. -/
theorem Told.transfer (h : p.Told)
    (hst : ∀ i, p'.sigPending.getLsbD i → p.sigPending.getLsbD i ∧
      (∀ u, p'.Takes i u → p.Takes i u) ∧
      ∀ u, p.Takes i u → (p.sigs u).workSignal → p'.Takes i u ∧ (p'.sigs u).workSignal) :
    p'.Told := by
  intro i hi ⟨t, ht⟩
  obtain ⟨hpnd, htks, hto⟩ := hst i hi
  obtain ⟨u, hu, hwk⟩ := h i hpnd ⟨t, htks t ht⟩
  exact ⟨u, hto u hu hwk⟩

theorem Told.of_gone (h : ∀ t ∈ p.threads, p.leaving t) : p.Told := by
  rintro i - ⟨t, ht⟩
  have := h t ht.mem
  simp [ht.stays] at this

theorem takes_iff (hths : p'.threads = p.threads)
    (hxt : (p'.sigs u).workExit = (p.sigs u).workExit)
    (hb : (p'.sigs u).blocked = (p.sigs u).blocked) : p'.Takes i u ↔ p.Takes i u := by
  have hlvg : p'.leaving u = p.leaving u := hxt
  constructor
  · exact fun ⟨hmem, hsty, hblk⟩ => ⟨hths ▸ hmem, hlvg ▸ hsty, hb ▸ hblk⟩
  · exact fun ⟨hmem, hsty, hblk⟩ => ⟨hths ▸ hmem, hlvg ▸ hsty, hb ▸ hblk⟩

/-- A step that changes no masks and no exits, makes nothing pending on the process and takes
nobody's `THREAD_WORK_SIGNAL` away. -/
theorem Inv.tell {sigs : T → Sigs} {sigPending : SigSet} (h : p.Inv)
    (hpnd : ∀ i, sigPending.getLsbD i → p.sigPending.getLsbD i)
    (hb : ∀ u, (sigs u).blocked = (p.sigs u).blocked)
    (hxt : ∀ u, (sigs u).workExit = (p.sigs u).workExit)
    (hwk : ∀ u, (p.sigs u).workSignal → (sigs u).workSignal)
    (hsf : ∀ u ∈ p.threads, ∀ i, (sigs u).pending.getLsbD i → (sigs u).blocked.getLsbD i = false →
      (sigs u).workSignal) : Inv { p with sigs, sigPending } := by
  have htks {i : Nat} {u : T} : Takes { p with sigs, sigPending } i u ↔ p.Takes i u :=
    takes_iff rfl (hxt u) (hb u)
  refine ⟨fun hs => (h.told hs).transfer fun i hi => ⟨hpnd i hi, fun u => htks.mp, ?_⟩,
    hsf, fun he u hu => ?_⟩
  · exact fun u hu hw => ⟨htks.mpr hu, hwk u hw⟩
  · exact (hxt u).trans (h.gone he u hu)

/-- What a thread does to its own record, and to the signals pending on the process, before it
works out anew whether there is something to deliver. -/
structure Touches (p q : Process T) (t : T) : Prop where
  threads : q.threads = p.threads
  exiting : q.exiting = p.exiting
  settled : q.owed = p.owed ∧ q.execThread = p.execThread
  others : ∀ u, u ≠ t → q.sigs u = p.sigs u
  workExit : (q.sigs t).workExit = (p.sigs t).workExit
  pending : ∀ i, q.sigPending.getLsbD i → p.sigPending.getLsbD i

theorem Touches.takes (h : p.Touches q t) (hu : u ≠ t) : q.Takes i u ↔ p.Takes i u := by
  have hsg := h.others u hu
  exact takes_iff h.threads (by rw [hsg]) (by rw [hsg])

variable [DecidableEq T]

@[simp] theorem setSigs_self : (p.setSigs t r).sigs t = r := Function.update_self ..

theorem setSigs_of_ne (h : u ≠ t) : (p.setSigs t r).sigs u = p.sigs u := Function.update_of_ne h ..

@[simp] theorem recalcLocked_self :
    (p.recalcLocked t).sigs t = { p.sigs t with workSignal := p.deliverable t ≠ 0 } :=
  setSigs_self

theorem recalcLocked_of_ne (h : u ≠ t) : (p.recalcLocked t).sigs u = p.sigs u := setSigs_of_ne h

theorem recalcLocked_takes : (p.recalcLocked t).Takes i u ↔ p.Takes i u := by
  have hsame : ((p.recalcLocked t).sigs u).blocked = (p.sigs u).blocked ∧
      ((p.recalcLocked t).sigs u).workExit = (p.sigs u).workExit := by
    by_cases hu : u = t
    · subst hu
      simp
    · rw [recalcLocked_of_ne hu]
      exact ⟨rfl, rfl⟩
  exact takes_iff rfl hsame.2 hsame.1

/-- A thread that works out anew what it has to deliver leaves no signal behind, if those that it
newly blocks have somebody else told. -/
theorem Inv.recalcLocked (h : p.Inv) (hq : p.Touches q t)
    (hblks : ∀ i, q.sigPending.getLsbD i → p.Takes i t → (q.sigs t).blocked.getLsbD i →
      (∃ u, u ≠ t ∧ p.Takes i u) → ∃ u, u ≠ t ∧ p.Takes i u ∧ (p.sigs u).workSignal) :
    (q.recalcLocked t).Inv := by
  refine ⟨fun hs => ?_, fun u hu i hpnd hblk => ?_, fun he u hu => ?_⟩
  · have hset : p.Settled := ⟨hq.settled.1 ▸ hs.1, hq.settled.2 ▸ hs.2⟩
    intro i hi ⟨u, hu⟩
    rw [recalcLocked_takes] at hu
    by_cases ht : q.Takes i t
    · -- the thread itself can take it, and has just seen so
      refine ⟨t, recalcLocked_takes.mpr ht, ?_⟩
      simp only [recalcLocked_self, decide_eq_true_eq]
      exact and_not_ne_zero (by simp [show q.sigPending.getLsbD i from hi]) ht.unblocked
    have hut : u ≠ t := fun e => ht (e ▸ hu)
    have hpu := (hq.takes hut).mp hu
    obtain ⟨v, hvt, hv, hwk⟩ : ∃ v, v ≠ t ∧ p.Takes i v ∧ (p.sigs v).workSignal := by
      obtain ⟨v, hv, hwk⟩ := h.told hset i (hq.pending i hi) ⟨u, hpu⟩
      by_cases hvt : v = t
      · subst hvt
        refine hblks i hi hv ?_ ⟨u, hut, hpu⟩
        by_contra hunb
        exact ht ⟨hq.threads ▸ hv.mem, by rw [leaving, hq.workExit]; exact hv.stays,
          by simpa using hunb⟩
      · exact ⟨v, hvt, hv, hwk⟩
    refine ⟨v, recalcLocked_takes.mpr ((hq.takes hvt).mpr hv), ?_⟩
    rw [recalcLocked_of_ne hvt, hq.others v hvt]
    exact hwk
  · by_cases hut : u = t
    · subst hut
      simp only [recalcLocked_self, decide_eq_true_eq] at hpnd hblk ⊢
      exact and_not_ne_zero (by simp [hpnd]) hblk
    · rw [recalcLocked_of_ne hut, hq.others u hut] at *
      exact h.self u (hq.threads ▸ hu) i hpnd hblk
  · have hgn := h.gone (hq.exiting ▸ he) u (hq.threads ▸ hu)
    by_cases hut : u = t
    · subst hut
      simpa [leaving, hq.workExit] using hgn
    · rw [leaving, recalcLocked_of_ne hut, hq.others u hut]
      exact hgn

theorem touches_setSigs (h : r.workExit = (p.sigs t).workExit) : p.Touches (p.setSigs t r) t where
  threads := rfl
  exiting := rfl
  settled := ⟨rfl, rfl⟩
  others := fun _ => setSigs_of_ne
  workExit := by simp [h]
  pending := fun _ => id

theorem Inv.signalMask {set : SigSet} (h : p.Inv) (hok : p.LeavesNone (.mask t how set)) :
    (p.signalMask t how set).Inv :=
  h.recalcLocked (touches_setSigs rfl) fun i hi ht hblk =>
    hok i hi ht (by simpa using hblk)

theorem Inv.signalDeliver (h : p.Inv) : (p.signalDeliver t).Inv := by
  unfold Process.signalDeliver
  extract_lets r own all sig taken action reset
  -- the mask stays as it was
  have hrcl {q : Process T} (hq : p.Touches q t) (hb : (q.sigs t).blocked = r.blocked) :
      (q.recalcLocked t).Inv :=
    h.recalcLocked hq fun i _ ht hblk => by
      rw [hb] at hblk
      exact absurd ht.unblocked (by simpa using hblk)
  have htkn : p.Touches taken t ∧ (taken.sigs t).blocked = r.blocked := by
    unfold taken
    split
    · exact ⟨touches_setSigs rfl, by simp⟩
    · exact ⟨⟨rfl, rfl, ⟨rfl, rfl⟩, fun _ _ => rfl, rfl, fun _ => getLsbD_of_and⟩, rfl⟩
  split
  · exact hrcl ⟨rfl, rfl, ⟨rfl, rfl⟩, fun _ _ => rfl, rfl, fun _ => id⟩ rfl
  unfold reset
  split
  · obtain ⟨⟨hths, hexi, hset, hoth, hxt, hpnd⟩, hblk⟩ := htkn
    exact hrcl ⟨hths, hexi, hset, hoth, hxt, hpnd⟩ hblk
  · exact hrcl htkn.1 htkn.2

theorem beginExit_gone (h : p.exiting → ∀ t ∈ p.threads, p.leaving t) :
    ∀ t ∈ p.beginExit.threads, p.beginExit.leaving t := by
  unfold beginExit
  split
  case isTrue he => exact h he
  case isFalse =>
    intro t ht
    simp [leaving, show t ∈ p.threads from ht]

theorem beginExit_inv (hsf : p.ToldSelf) (hgn : p.exiting → ∀ t ∈ p.threads, p.leaving t) :
    p.beginExit.Inv := by
  refine ⟨fun _ => Told.of_gone (beginExit_gone hgn), ?_, fun _ => beginExit_gone hgn⟩
  unfold Process.beginExit
  split
  · exact hsf
  intro t ht i
  simp only [show t ∈ p.threads from ht]
  exact hsf t ht i

theorem Inv.beginExit (h : p.Inv) : p.beginExit.Inv := beginExit_inv h.self h.gone

omit [DecidableEq T] in
theorem Inv.setActions {actions : Nat → Action} (h : p.Inv) :
    Inv { p with actions := actions } :=
  ⟨fun hs => (h.told hs).transfer fun _ hi => ⟨hi, fun _ ⟨hmem, hsty, hb⟩ => ⟨hmem, hsty, hb⟩,
    fun _ ⟨hmem, hsty, hb⟩ hwk => ⟨⟨hmem, hsty, hb⟩, hwk⟩⟩, h.self, h.gone⟩

variable {sig : Nat}

theorem Inv.signalForce (h : p.Inv) : (p.signalForce t sig).Inv := by
  unfold Process.signalForce
  extract_lets r action p1
  have h1 : p1.Inv := h.setActions
  split
  · exact h1.beginExit
  refine h1.recalcLocked (touches_setSigs rfl) fun i _ ht hblk => ?_
  rw [setSigs_self] at hblk
  exact absurd ht.unblocked (by simpa [r] using getLsbD_of_and hblk)

theorem Inv.signalAction {act : Action} (h : p.Inv) : (p.signalAction sig act).Inv := by
  unfold Process.signalAction
  extract_lets p1
  have h1 : p1.Inv := h.setActions
  split
  case isFalse => exact h1
  -- pending sets shrink, and nothing else changes
  have hsg : ∀ u, ∃ pending : SigSet, (if u ∈ p1.threads then
      { p1.sigs u with pending := (p1.sigs u).pending &&& ~~~sigbit sig } else p1.sigs u) =
        { p1.sigs u with pending := pending } ∧
      ∀ i, pending.getLsbD i → (p1.sigs u).pending.getLsbD i := by
    intro u
    split
    · exact ⟨_, rfl, fun _ => getLsbD_of_and⟩
    · exact ⟨_, rfl, fun _ => id⟩
  refine h1.tell (fun _ => getLsbD_of_and) (fun u => ?_) (fun u => ?_) (fun u => ?_)
    fun u hu i => ?_
  all_goals
    obtain ⟨pending, heq, hsub⟩ := hsg u
    simp only [heq]
  · exact id
  · exact fun hpnd => h1.self u hu i (hsub i hpnd)

theorem getLsbD_sigbit (h : (sigbit sig).getLsbD i) : i = sig - 1 ∧ i < 64 := by
  have hlt := lt_of_getLsbD h
  rw [sigbit, getLsbD_twoPow] at h
  simp only [Bool.and_eq_true, decide_eq_true_eq] at h
  exact ⟨h.2.symm, hlt⟩

theorem and_sigbit (hlt : sig - 1 < 64) : a &&& sigbit sig = 0 ↔ a.getLsbD (sig - 1) = false := by
  rw [sigbit, and_twoPow]
  cases a.getLsbD (sig - 1) with
  | false => simp
  | true =>
    simp only [Bool.true_eq_false, iff_false]
    intro h0
    have := congrArg (·.getLsbD (sig - 1)) h0
    simp [hlt] at this

/-- Who is chosen could take the signal, and nobody is chosen only if nobody could. -/
theorem chooseThreadLocked_spec (p : Process T) (self : Option T) (bit : SigSet) :
    match p.chooseThreadLocked self bit with
    | some t => t ∈ p.threads ∧ p.couldTake bit t
    | none => ∀ t ∈ p.threads, ¬p.couldTake bit t := by
  have hfd : match p.threads.find? (p.couldTake bit) with
      | some t => t ∈ p.threads ∧ p.couldTake bit t
      | none => ∀ t ∈ p.threads, ¬p.couldTake bit t := by
    split
    case h_1 t ht => exact ⟨List.mem_of_find?_eq_some ht, List.find?_some ht⟩
    case h_2 ht => simpa using List.find?_eq_none.mp ht
  unfold chooseThreadLocked
  cases self with
  | none => exact hfd
  | some self =>
    by_cases hsf : self ∈ p.threads ∧ p.couldTake bit self
    · simp [hsf]
    · simpa [hsf] using hfd

omit [DecidableEq T] in
theorem couldTake_iff (hlt : sig - 1 < 64) (ht : t ∈ p.threads) :
    p.couldTake (sigbit sig) t ↔ p.Takes (sig - 1) t := by
  simp only [couldTake, Bool.and_eq_true, decide_eq_true_eq, Bool.not_eq_true', and_sigbit hlt]
  exact ⟨fun h => ⟨ht, h.2, h.1⟩, fun h => ⟨h.unblocked, h.stays⟩⟩

theorem work_sigs (t' : Option T) (u : T) :
    ((p.work t').sigs u).blocked = (p.sigs u).blocked ∧
      ((p.work t').sigs u).pending = (p.sigs u).pending ∧
      (p.work t').leaving u = p.leaving u ∧
      (((p.work t').sigs u).workSignal ↔ (p.sigs u).workSignal ∨ t' = some u) := by
  cases t' with
  | none => simp [work]
  | some t =>
    by_cases hu : u = t
    · subst hu
      simp [work, leaving]
    · simp [work, leaving, setSigs_of_ne hu, Ne.symm hu]

theorem work_takes : (p.work t').Takes i u ↔ p.Takes i u := by
  obtain ⟨hblk, -, hlvg, -⟩ := work_sigs t' u
  have hths : (p.work t').threads = p.threads := by cases t' <;> rfl
  exact takes_iff hths hlvg hblk

theorem Inv.queueProcess {self : Option T} (h : p.Inv) :
    (p.queueProcess self sig).Inv := by
  unfold Process.queueProcess
  split
  · exact h
  extract_lets thread
  split
  · exact h
  generalize hq : ({ p with sigPending := p.sigPending ||| sigbit sig } : Process T) = q
  have hqtakes {i : Nat} {u : T} : q.Takes i u ↔ p.Takes i u := by
    subst hq
    exact takes_iff rfl rfl rfl
  have hqsigs : q.sigs = p.sigs := by subst hq; rfl
  have hths : (q.work thread).threads = p.threads := by subst hq; cases thread <;> rfl
  have hexi : (q.work thread).exiting = p.exiting := by subst hq; cases thread <;> rfl
  have hpnd : (q.work thread).sigPending = p.sigPending ||| sigbit sig := by
    subst hq; cases thread <;> rfl
  have hset : (q.work thread).Settled → p.Settled := by subst hq; cases thread <;> exact id
  refine ⟨fun hs i hi => ?_, fun u hu i => ?_, fun he u hu => ?_⟩
  · rintro ⟨u, hu⟩
    rw [work_takes, hqtakes] at hu
    have hspec := chooseThreadLocked_spec p self (sigbit sig)
    rw [hpnd, getLsbD_or, Bool.or_eq_true] at hi
    rcases hi with hold | hnew
    · obtain ⟨v, hv, hwk⟩ := h.told (hset hs) i hold ⟨u, hu⟩
      refine ⟨v, work_takes.mpr (hqtakes.mpr hv), ?_⟩
      rw [(work_sigs thread v).2.2.2, hqsigs]
      exact .inl hwk
    obtain ⟨rfl, hlt⟩ := getLsbD_sigbit hnew
    cases hthr : thread with
    | none =>
      rw [show p.chooseThreadLocked self (sigbit sig) = none from hthr] at hspec
      exact absurd ((couldTake_iff hlt hu.mem).mpr hu) (hspec u hu.mem)
    | some v =>
      rw [show p.chooseThreadLocked self (sigbit sig) = some v from hthr] at hspec
      refine ⟨v, work_takes.mpr (hqtakes.mpr ((couldTake_iff hlt hspec.1).mp hspec.2)), ?_⟩
      rw [(work_sigs (some v) v).2.2.2]
      exact .inr rfl
  · obtain ⟨hb, hp, -, hwk⟩ := work_sigs thread u
    rw [hb, hp, hwk, hqsigs]
    exact fun h1 h2 => .inl (h.self u (hths ▸ hu) i h1 h2)
  · rw [(work_sigs thread u).2.2.1, leaving, hqsigs]
    exact h.gone (hexi ▸ he) u (hths ▸ hu)

theorem Inv.setSigs (h : p.Inv) (hb : r.blocked = (p.sigs t).blocked)
    (hxt : r.workExit = (p.sigs t).workExit) (hwk : (p.sigs t).workSignal → r.workSignal)
    (hsf : t ∈ p.threads → ∀ i, r.pending.getLsbD i → r.blocked.getLsbD i = false →
      r.workSignal) : (p.setSigs t r).Inv := by
  have hsg (u : T) : u = t ∧ (p.setSigs t r).sigs u = r ∨ (p.setSigs t r).sigs u = p.sigs u := by
    by_cases hu : u = t
    · exact .inl ⟨hu, hu ▸ setSigs_self⟩
    · exact .inr (setSigs_of_ne hu)
  refine h.tell (fun _ => id) (fun u => ?_) (fun u => ?_) (fun u => ?_) fun u hu i => ?_
  all_goals rcases hsg u with ⟨rfl, heq⟩ | heq <;> simp only [Process.setSigs] at heq <;> rw [heq]
  · exact hb
  · exact hxt
  · exact hwk
  · exact id
  · exact hsf hu i
  · exact h.self u hu i

theorem Inv.queueThread (h : p.Inv) : (p.queueThread t sig).2.Inv := by
  unfold Process.queueThread
  split
  case isFalse => exact h
  extract_lets r
  split
  · exact h
  split
  case isTrue hblk =>
    refine h.setSigs rfl rfl id fun ht i hpnd hunb => ?_
    rw [getLsbD_or, Bool.or_eq_true] at hpnd
    rcases hpnd with hold | hnew
    · exact h.self t ht i hold hunb
    · obtain ⟨rfl, hlt⟩ := getLsbD_sigbit hnew
      exact absurd ((and_sigbit hlt).mpr hunb) hblk
  case isFalse =>
    split
    · exact h
    · exact h.setSigs rfl rfl (fun _ => rfl) fun _ _ _ _ => rfl

theorem Inv.signalSend {self : Option T} (h : p.Inv) : (p.signalSend self tid sig).2.Inv := by
  unfold Process.signalSend
  split
  · split
    · exact h
    simp only
    split
    · exact h
    · exact h.beginExit
  · split
    · exact h.queueProcess
    · exact h.queueThread

/-- **`signal_retarget` tells everybody who could take a pending signal.** -/
theorem Inv.signalRetarget (h : p.Inv) : p.signalRetarget.Inv := by
  have hsg (u : T) : ∃ work : Bool,
      p.signalRetarget.sigs u = { p.sigs u with workSignal := work } ∧
      ((p.sigs u).workSignal → work) ∧ ∀ i, p.sigPending.getLsbD i → p.Takes i u → work := by
    simp only [Process.signalRetarget]
    split
    · exact ⟨true, rfl, fun _ => rfl, fun _ _ _ => rfl⟩
    case isFalse hno =>
      refine ⟨_, rfl, id, fun i hi hu => absurd ⟨hu.mem, by simp [hu.stays], ?_⟩ hno⟩
      exact and_not_ne_zero hi hu.unblocked
  have htks {i : Nat} {u : T} : p.signalRetarget.Takes i u ↔ p.Takes i u := by
    obtain ⟨work, heq, -⟩ := hsg u
    exact takes_iff rfl (by rw [heq]) (by rw [heq])
  refine ⟨fun _ i hi ⟨u, hu⟩ => ⟨u, hu, ?_⟩, fun u hu i hpnd hb => ?_, fun he u hu => ?_⟩
  · obtain ⟨work, heq, -, hto⟩ := hsg u
    simpa [heq] using hto i hi (htks.mp hu)
  · obtain ⟨work, heq, hwk, -⟩ := hsg u
    rw [heq] at hpnd hb ⊢
    exact hwk (h.self u hu i hpnd hb)
  · obtain ⟨work, heq, -⟩ := hsg u
    simpa [leaving, heq] using h.gone he u hu

/-- A thread that joins is leaving already, or adds to nobody's signals. -/
theorem Inv.attach (h : p.Inv) (ht : t ∉ p.threads)
    (hjoin : p.exiting = false → p.execThread = none → ∀ i, p.sigPending.getLsbD i →
      blocked.getLsbD i = false → ∃ u, p.Takes i u) : (p.attachThreadUser t blocked).Inv := by
  have hne {u : T} (hu : u ∈ p.threads) : u ≠ t := fun e => ht (e ▸ hu)
  have hold {u : T} (hu : u ∈ p.threads) : (p.attachThreadUser t blocked).sigs u = p.sigs u :=
    setSigs_of_ne (hne hu)
  have hnew : (p.attachThreadUser t blocked).sigs t = _ := setSigs_self
  have htks {i : Nat} {u : T} (hu : p.Takes i u) : (p.attachThreadUser t blocked).Takes i u :=
    ⟨List.mem_cons_of_mem _ hu.mem, by rw [leaving, hold hu.mem]; exact hu.stays,
      by rw [hold hu.mem]; exact hu.unblocked⟩
  refine ⟨fun hs i hi => ?_, fun u hu i => ?_, fun he u hu => ?_⟩
  · rintro ⟨u, hu⟩
    have hsm : ∃ v, p.Takes i v := by
      rcases List.mem_cons.mp hu.mem with rfl | hmem
      · have hsty := hu.stays
        have hunb := hu.unblocked
        rw [leaving, hnew] at hsty
        rw [hnew] at hunb
        simp only [Bool.or_eq_false_iff, Option.isSome_eq_false_iff, Option.isNone_iff_eq_none]
          at hsty
        exact hjoin hsty.1 hsty.2 i hi hunb
      · exact ⟨u, hmem, by rw [← hu.stays, leaving, leaving, hold hmem],
          by rw [← hu.unblocked, hold hmem]⟩
    obtain ⟨v, hv, hwk⟩ := h.told hs i hi hsm
    exact ⟨v, htks hv, by rw [hold hv.mem]; exact hwk⟩
  · rcases List.mem_cons.mp hu with rfl | hmem
    · rw [hnew]
      intro hpnd
      simp at hpnd
    · rw [hold hmem]
      exact h.self u hmem i
  · rcases List.mem_cons.mp hu with rfl | hmem
    · rw [leaving, hnew]
      simp [show p.exiting = true from he]
    · rw [leaving, hold hmem]
      exact h.gone he u hmem

/-- Telling threads to leave changes nothing else about them. -/
structure Leaves (p q : Process T) : Prop where
  threads : q.threads = p.threads
  exiting : q.exiting = p.exiting
  sigs : ∀ u, ∃ workExit : Bool, q.sigs u = { p.sigs u with workExit := workExit } ∧
    (p.leaving u → workExit)

omit [DecidableEq T] in
theorem Leaves.self (h : p.Leaves q) (hp : p.ToldSelf) : q.ToldSelf := by
  intro u hu i
  obtain ⟨workExit, heq, -⟩ := h.sigs u
  rw [heq]
  exact hp u (h.threads ▸ hu) i

omit [DecidableEq T] in
theorem Leaves.gone (h : p.Leaves q) (hp : p.exiting → ∀ t ∈ p.threads, p.leaving t) :
    q.exiting → ∀ t ∈ q.threads, q.leaving t := by
  intro he u hu
  obtain ⟨workExit, heq, hmono⟩ := h.sigs u
  rw [leaving, heq]
  exact hmono (hp (h.exiting ▸ he) u (h.threads ▸ hu))

theorem leaves_setSigs : p.Leaves (p.setSigs t { p.sigs t with workExit := true }) where
  threads := rfl
  exiting := rfl
  sigs := fun u => by
    by_cases hu : u = t
    · subst hu
      exact ⟨true, setSigs_self, fun _ => rfl⟩
    · exact ⟨_, setSigs_of_ne hu, id⟩

theorem Inv.processThreadExit (h : p.Inv) : (p.processThreadExit t).Inv := by
  unfold Process.processThreadExit
  split
  · exact h
  extract_lets r left
  have hlvs : p.Leaves left := leaves_setSigs
  have hsf := hlvs.self h.self
  have hgn := hlvs.gone h.gone
  split
  · exact beginExit_inv hsf hgn
  · exact ⟨fun hs => absurd hs.1 (Nat.succ_ne_zero _), hsf, hgn⟩

theorem Inv.processDethread (h : p.Inv) : (p.processDethread t).Inv := by
  unfold Process.processDethread
  split
  · exact h
  rename_i hrun
  have hlvs : p.Leaves { p with
      sigs := fun u => if u ∈ p.threads ∧ u ≠ t then { p.sigs u with workExit := true }
        else p.sigs u } := by
    refine ⟨rfl, rfl, fun u => ?_⟩
    simp only
    split
    · exact ⟨true, rfl, fun _ => rfl⟩
    · exact ⟨_, rfl, id⟩
  exact ⟨fun hs => absurd hs.2 nofun, hlvs.self h.self, hlvs.gone h.gone⟩

theorem Inv.reaped (h : p.Inv) (ht : p.leaving t) :
    Inv { p with threads := p.threads.erase t } := by
  refine ⟨fun hs => (h.told hs).transfer fun i hi => ⟨hi, fun u hu => ?_, fun u hu hwk => ?_⟩,
    fun u hu => h.self u (List.mem_of_mem_erase hu),
    fun he u hu => h.gone he u (List.mem_of_mem_erase hu)⟩
  · exact ⟨List.mem_of_mem_erase hu.mem, hu.stays, hu.unblocked⟩
  have hut : u ≠ t := by
    rintro rfl
    simp [hu.stays] at ht
  exact ⟨⟨(List.mem_erase_of_ne hut).mpr hu.mem, hu.stays, hu.unblocked⟩, hwk⟩

/-- The only thread takes the mask of its creator over, when it has none. -/
theorem Inv.inherit (h : p.Inv) (hths : p.threads = [t]) (hb : (p.sigs t).blocked = 0) :
    Inv (p.setSigs t { p.sigs t with blocked := blocked }) := by
  have honly {u : T} (hu : u ∈ p.threads) : u = t := by simpa [hths] using hu
  refine ⟨fun hs i hi => ?_, fun u hu i hpnd _ => ?_, fun he u hu => ?_⟩
  · rintro ⟨u, hu⟩
    obtain rfl := honly hu.mem
    have htks : p.Takes i u := ⟨hu.mem, by simpa [leaving] using hu.stays, by simp [hb]⟩
    obtain ⟨v, hv, hwk⟩ := h.told hs i hi ⟨u, htks⟩
    obtain rfl := honly hv.mem
    exact ⟨v, hu, by simpa using hwk⟩
  · obtain rfl := honly hu
    rw [setSigs_self] at hpnd ⊢
    exact h.self u hu i hpnd (by simp [hb])
  · obtain rfl := honly hu
    simpa [leaving] using h.gone he u hu

theorem Inv.step {a : Act T} (h : p.Inv) (hok : p.LeavesNone a) (hs : p.step a = some p') :
    p'.Inv := by
  cases a with
  | send self tid sig => cases hs; exact h.signalSend
  | force t sig =>
    obtain ⟨-, rfl⟩ := of_guard hs
    exact h.signalForce
  | mask t how set =>
    obtain ⟨-, rfl⟩ := of_guard hs
    exact h.signalMask hok
  | deliver t =>
    obtain ⟨-, rfl⟩ := of_guard hs
    exact h.signalDeliver
  | action sig act => cases hs; exact h.signalAction
  | retarget =>
    obtain ⟨-, rfl⟩ := of_guard hs
    exact h.signalRetarget
  | sibling t creator =>
    obtain ⟨⟨ht, hmem, hcreator⟩, rfl⟩ := of_guard hs
    refine h.attach ht fun hexi hex i _ hb => ⟨creator, hmem, ?_, hb⟩
    simpa [hexi, hex] using hcreator
  | first t =>
    obtain ⟨hnil, rfl⟩ := of_guard hs
    refine h.attach (by simp [hnil]) fun hexi hex i hi _ => ?_
    have h0 : p.sigPending = 0 := by simpa [LeavesNone, hexi, hex] using hok
    simp [h0] at hi
  | inherit t blocked =>
    obtain ⟨⟨hths, hb⟩, rfl⟩ := of_guard hs
    exact h.inherit hths hb
  | threadExit t =>
    obtain ⟨-, rfl⟩ := of_guard hs
    exact h.processThreadExit
  | exit => cases hs; exact h.beginExit
  | dethread t =>
    obtain ⟨-, rfl⟩ := of_guard hs
    exact h.processDethread
  | alone =>
    obtain ⟨-, hs⟩ := Option.ite_none_right_eq_some.mp hs
    split at hs
    case isTrue he =>
      cases hs
      exact ⟨fun _ => Told.of_gone (h.gone he), h.self, h.gone⟩
    case isFalse =>
      cases hs
      exact ⟨fun hs => absurd hs.1 (Nat.succ_ne_zero _), h.self, h.gone⟩
  | reaped t =>
    obtain ⟨⟨-, ht, -⟩, rfl⟩ := of_guard hs
    exact h.reaped ht

/-- A process that was just created has no thread, and nothing is pending on it. -/
structure Fresh (p : Process T) : Prop where
  threads : p.threads = []
  pending : p.sigPending = 0
  settled : p.Settled

omit [DecidableEq T] in
theorem Fresh.inv (h : p.Fresh) : p.Inv where
  told := fun _ i hi => by simp [h.pending] at hi
  self := by simp [ToldSelf, h.threads]
  gone := by simp [h.threads]

/-- **No deliverable signal is stranded**, in any run in which no thread blocks a signal that
only it was told about while another could take it, and no process gets its first thread when
something is pending already. -/
theorem no_signal_stranded {acts : List (Act T)} (h : p.Fresh)
    (hrun : Run (Under LeavesNone (Advances step)) p acts p') :
    (p'.Settled → p'.Told) ∧ p'.ToldSelf := by
  have hinv := hrun.invariant (fun h hs => h.step hs.1 hs.2) h.inv
  exact ⟨hinv.told, hinv.self⟩

abbrev SIGUSR1 : Nat := 12

def newborn : Process Nat where
  threads := []
  sigs := fun _ => { blocked := 0, pending := 0, workSignal := false, workExit := false }
  sigPending := 0
  actions := fun _ => .zero
  isInit := false
  exiting := false
  execThread := none
  owed := 0

/-- Two threads, and a signal that the process catches. -/
def twoThreadsTold : List (Act Nat) :=
  [.first 0, .sibling 1 0, .action SIGUSR1 { handler := .caught, resetHand := false },
    .send none none SIGUSR1]

/-- The thread that was told leaves, and the other one is told. -/
theorem no_signal_stranded_threadExit :
    ∃ p', Run (Under LeavesNone (Advances step)) newborn
        (twoThreadsTold ++ [.threadExit 1, .retarget]) p' ∧
      p'.sigPending = sigbit SIGUSR1 ∧ (p'.Settled → p'.Told) ∧ p'.ToldSelf := by
  obtain ⟨p', hrun, hpending⟩ : ∃ p', Run (Under LeavesNone (Advances step)) newborn
      (twoThreadsTold ++ [.threadExit 1, .retarget]) p' ∧ p'.sigPending = sigbit SIGUSR1 :=
    ⟨_, .cons ⟨.inr (.inr rfl), rfl⟩ <| .cons ⟨trivial, rfl⟩ <| .cons ⟨trivial, rfl⟩ <|
      .cons ⟨trivial, rfl⟩ <| .cons ⟨trivial, rfl⟩ <| .cons ⟨trivial, rfl⟩ .nil, by decide +kernel⟩
  exact ⟨p', hrun, hpending, no_signal_stranded ⟨rfl, rfl, rfl, rfl⟩ hrun⟩

/-- The thread that was told blocks the signal, and nobody tells the other one. -/
theorem blocked_signal_stranded :
    ∃ p', Run (Advances step) newborn
        (twoThreadsTold ++ [.mask 1 .block (sigbit SIGUSR1)]) p' ∧ p'.Settled ∧ ¬p'.Told := by
  refine ⟨_, .cons rfl <| .cons rfl <| .cons rfl <| .cons rfl <| .cons rfl .nil, ⟨rfl, rfl⟩, ?_⟩
  intro htold
  obtain ⟨t, ht, hwork⟩ := htold 11 (by decide +kernel)
    ⟨0, by decide +kernel, by decide +kernel, by decide +kernel⟩
  have hmem : t ∈ [1, 0] := ht.mem
  obtain rfl | rfl : t = 1 ∨ t = 0 := by simpa using hmem
  · exact absurd ht.unblocked (by decide +kernel)
  · exact absurd hwork (by decide +kernel)

end Process

end Vex.Proc.Signal
