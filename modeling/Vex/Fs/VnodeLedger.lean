import Vex.Lib.Counted
import Vex.Fs.VnodeRefs

/-! The ledger of the vnodes: where the references of each are, and that every step of a thread
moves every vnode along the life of a counted object. -/

namespace Vex.Fs.Refs.World

open Vex.Lib Function Account.Move Vcache List

attribute [local simp] setCount beginDestroy

variable {n : Nat}

/-- The vnodes that keep `v` as their parent. -/
def children (s : World n) (v : Nat) : Nat :=
  ∑ w ∈ Finset.range s.made, if s.destroyed w = 0 ∧ s.parent w = some v then 1 else 0

/-- All references to `v`. -/
def tokens (s : World n) (v : Nat) : Nat := tally (fun th => th.refs v) s.threads + s.children v

/-- How many threads are about to enter `vcache_keep` with `v`. -/
def keeps (s : World n) (v : Nat) : Nat := tally (fun th => th.todo.count (.keep v)) s.threads

/-- How many times `vnode_destroy` of `v` is due. -/
def dooms (s : World n) (v : Nat) : Nat := tally (fun th => th.todo.count (.destroy v)) s.threads

/-- How many threads have `v` for themselves. -/
def owns (s : World n) (v : Nat) : Nat :=
  tally (fun th => th.fresh.count v + th.lost.count v) s.threads

/-- What the world has on the vnode `v`. -/
@[simps] def account (s : World n) (v : Nat) : Account where
  made := decide (v < s.made)
  refcount := s.refcount v
  tokens := s.tokens v
  owns := s.owns v
  keeps := s.keeps v
  dooms := s.dooms v
  destroyed := s.destroyed v
  cached := (s.cache.entry v).isSome
  queued := decide (v ∈ s.cache.queue)

structure Sound (s : World n) : Prop where
  cache : s.cache.Ok
  fine : ∀ v, (s.account v).Fine

variable {s s' : World n} {t : Fin n} {v w : Nat} {th th' : Thread}

theorem ledger (hth : s.threads t = th) (hth' : s'.threads = update s.threads t th')
    (v : Nat) :
    s'.tokens v + th.refs v + s.children v = s.tokens v + th'.refs v + s'.children v ∧
    s'.keeps v + th.todo.count (.keep v) = s.keeps v + th'.todo.count (.keep v) ∧
    s'.dooms v + th.todo.count (.destroy v) = s.dooms v + th'.todo.count (.destroy v) ∧
    s'.owns v + (th.fresh.count v + th.lost.count v) =
      s.owns v + (th'.fresh.count v + th'.lost.count v) := by
  have hrf := tally_update (fun th => th.refs v) s.threads t th'
  have hkps := tally_update (fun th => th.todo.count (.keep v)) s.threads t th'
  have hdooms := tally_update (fun th => th.todo.count (.destroy v)) s.threads t th'
  have how := tally_update (fun th => th.fresh.count v + th.lost.count v) s.threads t th'
  rw [← hth'] at hrf hkps hdooms how
  subst hth
  exact ⟨by simp only [tokens]; omega, hkps, hdooms, how⟩

theorem account_eq (hth : s.threads t = th) (hth' : s'.threads = update s.threads t th')
    (hmd : a.made = decide (w < s'.made)) (hcnt : a.refcount = s'.refcount w)
    (hdes : a.destroyed = s'.destroyed w) (hca : a.cached = (s'.cache.entry w).isSome)
    (hque : a.queued = decide (w ∈ s'.cache.queue))
    (htks : a.tokens + th.refs w + s.children w = s.tokens w + th'.refs w + s'.children w)
    (hkps : a.keeps + th.todo.count (.keep w) = s.keeps w + th'.todo.count (.keep w))
    (hdooms : a.dooms + th.todo.count (.destroy w) = s.dooms w + th'.todo.count (.destroy w))
    (how : a.owns + (th.fresh.count w + th.lost.count w) =
      s.owns w + (th'.fresh.count w + th'.lost.count w)) : s'.account w = a := by
  obtain ⟨hT, hK, hD, hO⟩ := ledger hth hth' w
  ext
  case made => simp [hmd]
  case refcount => simp [hcnt]
  case destroyed => simp [hdes]
  case cached => simp [hca]
  case queued => simp [hque]
  all_goals simp only [account_tokens, account_keeps, account_dooms, account_owns]; omega

/-! ## Each step moves every account -/

open Relation (ReflTransGen)

/-- What the worlds have on a vnode is some moves apart. -/
def Moves (s s' : World n) (w : Nat) : Prop :=
  ReflTransGen Account.Move (s.account w) (s'.account w)

theorem moves_by (hmv : Account.Move (s.account w) a) (ha : s'.account w = a) : s.Moves s' w := by
  rw [Moves, ha]
  exact .single hmv

theorem moves_none (ha : s'.account w = s.account w) : s.Moves s' w := by
  rw [Moves, ha]

theorem moves_takeRef (hth : s.threads t = th) (htd : th'.todo = th.todo)
    (hrf : ∀ w, th'.refs w = th.refs w)
    (how : ∀ w, th'.fresh.count w + th'.lost.count w = th.fresh.count w + th.lost.count w)
    (hca : ∀ w, (c.entry w).isSome = (s.cache.entry w).isSome)
    (hque : ∀ w, w ∈ c.queue ↔ w ∈ s.cache.queue ∧ w ≠ v) (hmd : v < s.made)
    (hown : s.owns v = 0) (hlive : s.dooms v + s.destroyed v = 0) (w : Nat) :
    s.Moves ({ s with cache := c }.takeRef t th' v) w := by
  have hrefs' : Thread.refs { th' with held := v :: th'.held } w =
      th.refs w + if v = w then 1 else 0 := by
    rw [← hrf]
    simp only [Thread.refs, count_cons, beq_iff_eq]
    omega
  have hchs : ({ s with cache := c }.takeRef t th' v).children w = s.children w := rfl
  have hown' := how w
  by_cases hw : w = v
  · subst hw
    apply moves_by (gain (by simpa using hmd) hown hlive)
    apply account_eq hth rfl
    case htks => simp [hrefs']; omega
    all_goals simp [takeRef, setThread, hca, hque, htd, hown']
  · apply moves_none
    apply account_eq hth rfl
    case htks => simp [hrefs', hchs, Ne.symm hw]
    all_goals simp [takeRef, setThread, hca, hque, htd, hown', hw]

/-- A reference less; the thread that drops the last one owes the vnode a look. -/
theorem moves_dropRef (hth : s.threads t = th)
    (hrf : ∀ w, th.refs w = th'.refs w + if v = w then 1 else 0)
    (hkeep : ∀ w, th'.todo.count (.keep w) = th.todo.count (.keep w))
    (hdoom : ∀ w, th'.todo.count (.destroy w) = th.todo.count (.destroy w))
    (how : ∀ w, th'.fresh.count w + th'.lost.count w = th.fresh.count w + th.lost.count w)
    (hown : s.owns v = 0) (htok : s.tokens v ≠ 0) (hlast : s.refcount v = 1 → s.keeps v = 0)
    (w : Nat) : s.Moves (s.dropRef t th' v) w := by
  have hchs : (s.dropRef t th' v).children w = s.children w := rfl
  have hrefs' : Thread.refs { th' with
      todo := if s.refcount v = 1 then .keep v :: th'.todo else th'.todo } w = th'.refs w := by
    simp only [Thread.refs]
    split <;> simp
  have hr := hrf w
  have hk := hkeep w
  have hd := hdoom w
  have ho := how w
  by_cases hw : w = v
  · subst hw
    by_cases hone : s.refcount w = 1
    · apply moves_by (dropLast htok hown hone (hlast hone))
      apply account_eq hth rfl
      case htks => simp; simp at hr; omega
      case hkps => simp [hone]; omega
      case hdooms => simp [hone, hd]
      case how => exact congrArg (s.owns w + ·) ho.symm
      case hcnt => simp [dropRef, setThread]
      all_goals rfl
    · apply moves_by (drop htok hown hone)
      apply account_eq hth rfl
      case htks => simp; simp at hr; omega
      case hkps => simp [hone, hk]
      case hdooms => simp [hone, hd]
      case how => exact congrArg (s.owns w + ·) ho.symm
      case hcnt => simp [dropRef, setThread]
      all_goals rfl
  · apply moves_none
    apply account_eq hth rfl
    case htks => simp [hrefs', hchs, hr, Ne.symm hw]
    case hkps => split <;> simp [hk, Ne.symm hw]
    case hdooms => split <;> simp [hd]
    case how => exact congrArg (s.owns w + ·) ho.symm
    case hcnt => simp [dropRef, setThread, hw]
    all_goals rfl

/-- The child that goes leaves its reference to the parent to be dropped. -/
theorem children_destroy (t : Fin n) (th : Thread) (hm : v < s.made) (hd : s.destroyed v = 0)
    (w : Nat) :
    (s.beginDestroy t th v).children w + (if s.parent v = some w then 1 else 0) =
      s.children w := by
  have hmem : v ∈ Finset.range s.made := Finset.mem_range.2 hm
  have hrs : ∑ x ∈ (Finset.range s.made).erase v,
      (if (s.beginDestroy t th v).destroyed x = 0 ∧ s.parent x = some w then 1 else 0) =
        ∑ x ∈ (Finset.range s.made).erase v,
          if s.destroyed x = 0 ∧ s.parent x = some w then 1 else 0 :=
    Finset.sum_congr rfl fun x hx => by
      simp [setThread, Finset.ne_of_mem_erase hx]
  have hmd : (s.beginDestroy t th v).made = s.made := rfl
  have hpar : (s.beginDestroy t th v).parent = s.parent := rfl
  rw [children, children, hmd, hpar, ← Finset.sum_erase_add _ _ hmem, hrs,
    ← Finset.sum_erase_add (Finset.range s.made) _ hmem]
  simp [setThread, hd]

theorem refs_owed (th : Thread) (p : Option Nat) (w : Nat) :
    Thread.refs { th with todo := p.toList.map Task.decref ++ th.todo } w =
      th.refs w + if p = some w then 1 else 0 := by
  cases p with
  | none => simp
  | some p =>
    simp only [Thread.refs, Option.toList_some, map_cons, map_nil, cons_append,
      nil_append, count_cons, beq_iff_eq, Task.decref.injEq, Option.some.injEq]
    omega

theorem count_keep_owed (todo : List Task) (p : Option Nat) (w : Nat) :
    (p.toList.map Task.decref ++ todo).count (.keep w) = todo.count (.keep w) := by
  cases p <;> simp

theorem count_destroy_owed (todo : List Task) (p : Option Nat) (w : Nat) :
    (p.toList.map Task.decref ++ todo).count (.destroy w) = todo.count (.destroy w) := by
  cases p <;> simp

variable {rest : List Task}

theorem todo_ne_zero (hth : s.threads t = th) (htd : th.todo = task :: rest) :
    tally (fun th => th.todo.count task) s.threads ≠ 0 := by
  have := le_tally (fun th => th.todo.count task) s.threads t
  simp only [hth, htd, count_cons_self] at this
  exact (Nat.lt_of_lt_of_le (Nat.succ_pos _) this).ne'

theorem moves_destroy (hth : s.threads t = th) (htd : th.todo = .destroy v :: rest)
    (hm : v < s.made) (hd : s.destroyed v = 0) (w : Nat) :
    s.Moves (s.beginDestroy t { th with todo := rest } v) w := by
  have hchs := children_destroy t { th with todo := rest } hm hd w
  have hrf := refs_owed { th with todo := rest } (s.parent v) w
  have hkps := count_keep_owed rest (s.parent v) w
  have hdooms := count_destroy_owed rest (s.parent v) w
  have hsame : Thread.refs { th with todo := rest } w = th.refs w := by
    simp [Thread.refs, htd]
  dsimp only at hrf
  have hdoom : s.dooms v ≠ 0 := todo_ne_zero hth htd
  by_cases hw : w = v
  · subst hw
    apply moves_by (destroy hdoom)
    apply account_eq hth rfl
    case htks => simp only [account_tokens]; omega
    case hkps => simp only [hkps, htd]; simp
    case hdooms => simp only [hdooms, htd]; simp; omega
    case hdes => simp [setThread]
    all_goals rfl
  · apply moves_none
    apply account_eq hth rfl
    case htks => simp only [account_tokens]; omega
    case hkps => simp only [hkps, htd]; simp
    case hdooms => simp only [hdooms, htd]; simp [Ne.symm hw]
    case hdes => simp [setThread, hw]
    all_goals rfl

theorem count_erase_add {l : List Nat} (hv : v ∈ l) (w : Nat) :
    l.count w = (l.erase v).count w + if v = w then 1 else 0 := by
  by_cases hw : v = w
  · subst hw
    have := count_pos_iff.2 hv
    simp only [count_erase_self, if_true]
    omega
  · simp [count_erase_of_ne (Ne.symm hw), hw]

theorem owns_ne_zero (hth : s.threads t = th) (hv : v ∈ th.fresh ∨ v ∈ th.lost) :
    s.owns v ≠ 0 := by
  have hle : _ ≤ s.owns v := le_tally (fun th => th.fresh.count v + th.lost.count v) s.threads t
  simp only [hth] at hle
  rcases hv with hv | hv
  all_goals
    have hpos := count_pos_iff.2 hv
    omega

theorem moves_discard (hth : s.threads t = th) (hv : v ∈ th.lost) (hm : v < s.made)
    (hd : s.destroyed v = 0) (w : Nat) :
    s.Moves (s.beginDestroy t { th with lost := th.lost.erase v } v) w := by
  have hchs := children_destroy t { th with lost := th.lost.erase v } hm hd w
  have hrf := refs_owed { th with lost := th.lost.erase v } (s.parent v) w
  have hkps := count_keep_owed th.todo (s.parent v) w
  have hdooms := count_destroy_owed th.todo (s.parent v) w
  have hlost := count_erase_add hv w
  have hsame : Thread.refs { th with lost := th.lost.erase v } w + (if v = w then 1 else 0) =
      th.refs w := by
    simp only [Thread.refs]
    omega
  have hown := owns_ne_zero hth (.inr hv)
  dsimp only at hrf
  by_cases hw : w = v
  · subst hw
    simp only [if_true] at hlost hsame
    have htok : th.refs w + s.children w ≤ s.tokens w := by
      have := le_tally (fun th => th.refs w) s.threads t
      simp only [hth] at this
      simp only [tokens]
      omega
    apply moves_by (discard hown)
    apply account_eq hth rfl
    case htks => simp only [account_tokens]; omega
    case hkps => simp [hkps]
    case hdooms => simp [hdooms]
    case how => simp only [account_owns]; omega
    case hdes => simp [setThread]
    all_goals rfl
  · simp only [Ne.symm hw, if_false] at hlost hsame
    apply moves_none
    apply account_eq hth rfl
    case htks => simp only [account_tokens]; omega
    case hkps => simp [hkps]
    case hdooms => simp [hdooms]
    case how => simp only [account_owns]; omega
    case hdes => simp [setThread, hw]
    all_goals rfl

section
variable (t : Fin n) (th : Thread) (fs ino : Nat) (parent : Option Nat)

theorem allocStep_made : (s.allocStep t th fs ino parent).made = s.made + 1 := by
  cases parent <;> rfl

theorem allocStep_destroyed : (s.allocStep t th fs ino parent).destroyed = s.destroyed := by
  cases parent <;> rfl

theorem children_alloc (hd : s.destroyed s.made = 0) (w : Nat) :
    (s.allocStep t th fs ino parent).children w =
      s.children w + if parent = some w then 1 else 0 := by
  have hpar : (s.allocStep t th fs ino parent).parent =
      update s.parent s.made parent := by
    cases parent <;> rfl
  rw [children, allocStep_made, allocStep_destroyed, hpar, Finset.sum_range_succ]
  congr 1
  · refine Finset.sum_congr rfl fun x hx => ?_
    simp [(Finset.mem_range.1 hx).ne]
  · simp [hd]

end

theorem moves_alloc {fs ino : Nat} {parent : Option Nat} (hth : s.threads t = th)
    (hd : s.destroyed s.made = 0)
    (hp : ∀ p ∈ parent, p < s.made ∧ s.owns p = 0 ∧ s.dooms p + s.destroyed p = 0 ∧
      p ∉ s.cache.queue) (w : Nat) : s.Moves (s.allocStep t th fs ino parent) w := by
  have hchs := children_alloc t th fs ino parent hd w
  have hths : (s.allocStep t th fs ino parent).threads =
      update s.threads t { th with fresh := s.made :: th.fresh } := by
    cases parent <;> rfl
  have hcache : (s.allocStep t th fs ino parent).cache = s.cache := by
    cases parent <;> rfl
  have hrf : Thread.refs { th with fresh := s.made :: th.fresh } w =
      th.refs w + if s.made = w then 1 else 0 := by
    simp only [Thread.refs, count_cons, beq_iff_eq]
    omega
  by_cases hw : w = s.made
  · subst hw
    have hne : parent ≠ some s.made := fun h => (hp _ h).1.ne rfl
    apply moves_by (make (by simp))
    apply account_eq hth hths
    case htks => simp only [hrf, hchs, hne]; simp; omega
    case how => simp; omega
    case hcnt => cases parent <;> simp [allocStep, setThread]
    all_goals simp [allocStep_made, allocStep_destroyed, hcache]
  · by_cases hpw : parent = some w
    · obtain ⟨hpm, hown, hlive, hq⟩ := hp w hpw
      apply moves_by (gain (by simpa using hpm) hown hlive)
      apply account_eq hth hths
      case htks => rw [hrf, hchs, if_pos hpw]; simp [Ne.symm hw]; omega
      case hcnt => simp [hpw, allocStep, setThread, hw]
      all_goals simp [allocStep_made, allocStep_destroyed, hcache, hq, Ne.symm hw]
      omega
    · apply moves_none
      apply account_eq hth hths
      case htks => simp [hrf, hchs, hpw, Ne.symm hw]
      case hcnt =>
        cases parent with
        | none => simp [allocStep, setThread, hw]
        | some p =>
          have hne : w ≠ p := fun h => hpw (by rw [h])
          simp [allocStep, setThread, hw, hne]
      all_goals simp [allocStep_made, allocStep_destroyed, hcache, Ne.symm hw]
      omega

theorem moves_publish (hth : s.threads t = th) (hv : v ∈ th.fresh)
    (hca : ∀ w, (c.entry w).isSome = (decide (w = v) || (s.cache.entry w).isSome))
    (hque : c.queue = s.cache.queue) (w : Nat) : s.Moves ({ s with cache := c }.setThread t
      { th with fresh := th.fresh.erase v, held := v :: th.held }) w := by
  have hfre := count_erase_add hv w
  have hown := owns_ne_zero hth (.inl hv)
  have hrf : Thread.refs { th with fresh := th.fresh.erase v, held := v :: th.held } w =
      th.refs w := by
    simp only [Thread.refs, count_cons, beq_iff_eq]
    omega
  have hchs : ({ s with cache := c }.setThread t
      { th with fresh := th.fresh.erase v, held := v :: th.held }).children w = s.children w := rfl
  by_cases hw : w = v
  · subst hw
    simp only [if_true] at hfre
    apply moves_by (publish hown)
    apply account_eq hth rfl
    case htks => simp [hrf, hchs]
    case how => simp only [account_owns]; omega
    case hmd => rfl
    all_goals simp [setThread, hca, hque]
  · simp only [Ne.symm hw, if_false] at hfre
    apply moves_none
    apply account_eq hth rfl
    case htks => simp [hrf, hchs]
    case how => simp only [account_owns]; omega
    case hmd => rfl
    all_goals simp [setThread, hca, hque, hw]

theorem account_cache (c : Vcache) (w : Nat) : ({ s with cache := c } : World n).account w =
    { s.account w with cached := (c.entry w).isSome, queued := decide (w ∈ c.queue) } := rfl

theorem moves_remove (htok : s.tokens v ≠ 0) (w : Nat) :
    s.Moves { s with cache := s.cache.remove v } w := by
  rw [Moves, account_cache (s.cache.remove v)]
  cases he : s.cache.entry v with
  | none =>
    simp only [remove, he]
    exact .refl
  | some e =>
    have hrem : s.cache.remove v = s.cache.bucketUnlink v := by simp only [remove, he]
    rw [hrem, bucketUnlink_entry, bucketUnlink_queue]
    by_cases hw : w = v
    · subst hw
      rw [if_pos rfl]
      exact .single (uncache htok)
    · rw [if_neg hw]
      exact .refl

theorem account_keep (hth : s.threads t = th) (htd : th.todo = .keep v :: rest) (c : Vcache)
    (vs : List Nat) (w : Nat) :
    ({ s with cache := c }.setThread t { th with todo := vs.map Task.destroy ++ rest }).account w =
      { s.account w with
        keeps := s.keeps w - if v = w then 1 else 0
        dooms := s.dooms w + vs.count w
        cached := (c.entry w).isSome
        queued := decide (w ∈ c.queue) } := by
  have hdec : (vs.map Task.destroy).count (.decref w) = 0 := by simp [count_eq_zero]
  have hkeep : (vs.map Task.destroy).count (.keep w) = 0 := by simp [count_eq_zero]
  have hinj : Injective Task.destroy := fun _ _ h => by injection h
  have hchs : ({ s with cache := c }.setThread t
      { th with todo := vs.map Task.destroy ++ rest }).children w = s.children w := rfl
  have hpos : s.keeps v ≠ 0 := todo_ne_zero hth htd
  apply account_eq hth rfl
  case htks => simp [Thread.refs, htd, hdec, hchs]
  case hkps =>
    simp only [htd, count_append, hkeep, count_cons, beq_iff_eq]
    by_cases hw : v = w
    · subst hw
      simp only [if_true]
      omega
    · simp [hw]
  case hdooms =>
    simp only [htd, count_append, count_map_of_injective _ _ hinj, count_cons,
      beq_iff_eq, reduceCtorEq, if_false]
    omega
  all_goals rfl

theorem moves_keep {max : Nat} (h : s.cache.Ok) (hth : s.threads t = th)
    (htd : th.todo = .keep v :: rest) (w : Nat) : s.Moves (s.proceedStep max t th) w := by
  have hkeep : s.keeps v ≠ 0 := todo_ne_zero hth htd
  simp only [Moves, proceedStep, htd]
  split
  case h_1 hk =>
    have hcnt := keep_used hk
    have hacc := account_keep hth htd s.cache [] w
    simp only [map_nil, nil_append] at hacc
    rw [hacc]
    by_cases hw : v = w
    · subst hw
      simp only [if_true]
      exact .single (revived hkeep hcnt)
    · simp only [hw]
      exact .refl
  case h_2 hk =>
    have hacc := account_keep hth htd s.cache [v] w
    simp only [map_cons, map_nil, cons_append, nil_append] at hacc
    rw [hacc]
    obtain ⟨hcnt, he⟩ := keep_uncached hk
    by_cases hw : v = w
    · subst hw
      simp only [count_cons_self]
      exact .single (doom hkeep hcnt (by simp [he]))
    · simp only [hw, count_cons_of_ne hw]
      exact .refl
  rename_i c' evicted hk
  have hcnt := keep_queued hk
  rw [hcnt] at hk
  obtain ⟨-, hndp, hev, hque, hca, hent⟩ := h.keep hk
  rw [account_keep hth htd]
  -- Who waits in the queue now may have to leave it at once, the vnode itself included.
  have hleave : ∀ {a : Account}, a.cached = (s.cache.entry w).isSome →
      a.queued = decide (w ∈ s.cache.queue ∨ w = v) → ReflTransGen Account.Move a
        { a with
          dooms := a.dooms + evicted.count w
          cached := (c'.entry w).isSome
          queued := decide (w ∈ c'.queue) } := by
    intro a hc hq
    by_cases hw : w ∈ evicted
    · have h1 : (c'.entry w).isSome = false := by simpa [hw] using hent w
      have h2 : decide (w ∈ c'.queue) = false := by simp [hque, hw]
      rw [count_eq_one_of_mem hndp hw, h1, h2]
      exact .single (evict (by simpa [hq] using hev w hw))
    · have h1 : (c'.entry w).isSome = a.cached := by
        rw [hc, Bool.eq_iff_iff, hent, and_iff_left hw]
      have h2 : decide (w ∈ c'.queue) = a.queued := by simp [hque, hw, hq]
      rw [count_eq_zero_of_not_mem hw, h1, h2]
      exact .refl
  by_cases hw : v = w
  · subst hw
    simp only [if_true]
    exact (ReflTransGen.single (enqueue hkeep hcnt hca)).trans
      (hleave rfl (by simp))
  · simp only [hw]
    exact hleave rfl (by simp [Ne.symm hw])

end Vex.Fs.Refs.World
