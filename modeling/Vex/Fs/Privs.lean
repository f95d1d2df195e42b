import Mathlib.Algebra.Group.Nat.Defs
import Mathlib.Tactic.Common
import Vex.Fs.Access
import Vex.Lib.Threads

/-! What a vnode remembers about the privileges of its file (`privs_seq`, `caps_state` and
`privs_clear` of `vnode_t`), on any number of threads that look at them, change them and record
what they saw. One regular file of an ext2 volume; every stretch under the vnode's lock, and every
operation of the file system, is one step. -/

namespace Vex.Fs.Privs

open Lib Threads

/-- The `VNODE_CAPS_*` states. -/
inductive CapsState
  | unknown | none | present
  deriving DecidableEq, Repr

/-- Setgid without group execute marks mandatory locking rather than granting anything. -/
def withoutPrivs (mode : Mode) : Mode :=
  let result := mode &&& ~~~(S_IFMT ||| S_ISUID)
  if mode &&& S_IXGRP ≠ 0 then result &&& ~~~S_ISGID else result

/-- The `mode_clear` of `vnode_remove_privs`. -/
def Clean (mode : Mode) : Prop := withoutPrivs mode = mode &&& ~~~S_IFMT

instance (mode : Mode) : Decidable (Clean mode) := inferInstanceAs (Decidable (_ = _))

/-- The parts of a `vnode_attr_t` that matter here; the times are always written. -/
structure Attr where
  /-- `VATTR_UID` or `VATTR_GID`. -/
  owner : Bool
  /-- The mode, with `VATTR_MODE`. -/
  mode : Option Mode
  deriving DecidableEq, Repr

/-- The mode that a request leaves; the inode's field has 16 bits. -/
def Attr.applied (attr : Attr) (mode : Mode) : Mode :=
  match attr.mode with
  | .none => mode
  | some new => ((mode &&& S_IFMT ||| new &&& ~~~S_IFMT).setWidth 16).setWidth 32

/-- The mask has one of the bits after which `vnode_set_attr` calls `privs_changed`. -/
def Attr.privs (attr : Attr) : Bool := attr.owner || attr.mode.isSome

/-- The file, as `vnode_stat` and the attributes show it, and what its vnode remembers. -/
structure File where
  mode : Mode
  /-- There is an attribute `XATTR_CAPS_NAME`. -/
  caps : Bool
  privsSeq : BitVec 32
  capsState : CapsState
  privsClear : Bool
  /-- How often `privs_changed` ran; `privsSeq` counts it modulo its width. -/
  changes : Nat
  deriving DecidableEq, Repr

/-- `privs_state_t`, once `clear` was looked at. -/
structure State where
  seq : BitVec 32
  capsState : CapsState
  /-- `changes` when the snapshot was taken. -/
  taken : Nat
  deriving DecidableEq, Repr

namespace File

def privsSnapshot (f : File) : State :=
  { seq := f.privsSeq, capsState := f.capsState, taken := f.changes }

def privsChanged (f : File) : File :=
  { f with
    privsSeq := f.privsSeq + 1, capsState := .unknown, privsClear := false,
    changes := f.changes + 1 }

def privsCleared (f : File) (seq : BitVec 32) : File :=
  if f.privsSeq = seq then { f with capsState := .none, privsClear := true } else f

def capsLearned (f : File) (seq : BitVec 32) (state : CapsState) : File :=
  if f.privsSeq = seq then { f with capsState := state } else f

end File

/-- What the file system answers in a step, of which the step reads what it needs. -/
structure Answer where
  /-- An error before the operation: no way across a mount, a read-only volume, no permission. -/
  refused : Option Errno
  /-- `ext2_inode_set_owner` can represent the owner. -/
  owner : Bool
  /-- What the operation returns; for `set_attr_locked`, what the write of the inode or
  `resize_locked` at its end returns. -/
  result : Except Errno Unit
  /-- Whether the attribute is there when the operation is over. -/
  caps : Bool
  deriving DecidableEq

/-- `set_attr_locked` of ext2: the mode in memory is changed before anything is written. -/
def setAttrLocked (mode : Mode) (attr : Attr) (answer : Answer) : Except Errno Unit × Mode :=
  if attr.owner ∧ ¬answer.owner then (.error .EINVAL, mode)
  else (answer.result, attr.applied mode)

/-- What `ops->set_xattr` and `ops->remove_xattr` can answer about the capability attribute: a
removal adds nothing, succeeds on an attribute that is there, and `-ENODATA` is the answer only
if there is none. -/
def Answer.removes (answer : Answer) (caps : Bool) : Prop :=
  (answer.caps → caps) ∧ (answer.result = .ok () → caps) ∧
    (answer.result = .error .ENODATA → caps = false)

/-- What `ops->get_xattr` can answer: it fails with `-ENODATA` on no attribute only, and succeeds,
or fails with `-ERANGE`, only on one. -/
def Answer.gets (answer : Answer) (caps : Bool) : Prop :=
  (answer.result = .error .ENODATA → caps = false) ∧
    (answer.result = .ok () ∨ answer.result = .error .ERANGE → caps)

instance (answer : Answer) (caps : Bool) : Decidable (answer.removes caps) :=
  inferInstanceAs (Decidable (_ ∧ _))

instance (answer : Answer) (caps : Bool) : Decidable (answer.gets caps) :=
  inferInstanceAs (Decidable (_ ∧ _))

/-- Where a thread is. -/
inductive Pc
  | idle
  /-- `vnode_set_attr` before the operation; within `vnode_remove_privs`, with its snapshot. -/
  | setAttr (attr : Attr) (caller : Option State)
  /-- The operation is over, `privs_changed` may be due. -/
  | attrSet (attr : Attr) (retval : Except Errno Unit) (caller : Option State)
  /-- `vnode_set_xattr` or `vnode_remove_xattr` of the capability attribute. -/
  | setXattr
  | removeXattr
  /-- The operation is over, `privs_changed` is due. -/
  | xattrSet
  /-- `vnode_remove_privs` before `vnode_stat`; `fsetid` if the caller has `CAP_FSETID`. -/
  | removePrivs (state : State) (fsetid : Bool)
  /-- `vnode_remove_privs` once the mode is dealt with. -/
  | removeCaps (state : State) (modeClear : Bool)
  /-- The attribute was removed, `privs_changed` is due. -/
  | capsRemoved
  /-- `privs_cleared` is due. -/
  | record (state : State)
  /-- `vnode_get_caps` before `get_xattr`. -/
  | getCaps (state : State)
  /-- `caps_learned` is due. -/
  | learned (state : State) (capsState : CapsState)
  deriving DecidableEq

inductive Act
  | setAttr (attr : Attr)
  | setXattr
  | removeXattr
  | removePrivs (fsetid : Bool)
  | getCaps
  /-- The next step of the call the thread is in. -/
  | next (answer : Answer)
  deriving DecidableEq

/-- The end of `vnode_remove_privs`, when there is no attribute. -/
def Pc.cleared (state : State) (modeClear : Bool) : Pc :=
  if modeClear then .record state else .idle

/-- The next step of a call. -/
def next (f : File) (answer : Answer) : Pc → Option (File × Pc)
  | .idle => .none
  | .setAttr attr caller =>
    match answer.refused with
    | some e => some (f, .attrSet attr (.error e) caller)
    | .none =>
      let (retval, mode) := setAttrLocked f.mode attr answer
      some ({ f with mode := mode }, .attrSet attr retval caller)
  | .attrSet attr retval caller =>
    let f' := if retval = .ok () ∧ attr.privs then f.privsChanged else f
    match caller with
    | .none => some (f', .idle)
    | some state => some (f', if retval = .ok () then .removeCaps state false else .idle)
  | .setXattr =>
    if answer.refused.isSome then some (f, .idle)
    else some ({ f with caps := answer.caps }, .xattrSet)
  | .removeXattr =>
    if answer.refused.isSome then some (f, .idle)
    else if answer.removes f.caps then some ({ f with caps := answer.caps }, .xattrSet)
    else .none
  | .xattrSet => some (f.privsChanged, .idle)
  | .removePrivs state fsetid =>
    match answer.refused with
    | some _ => some (f, .idle)
    | .none =>
      if Clean f.mode then some (f, .removeCaps state true)
      else if fsetid then some (f, .removeCaps state false)
      else some (f, .setAttr { owner := false, mode := some (withoutPrivs f.mode) } (some state))
  | .removeCaps state modeClear =>
    if state.capsState = .none then some (f, .cleared state modeClear)
    else if answer.removes f.caps then
      let f' := { f with caps := answer.caps }
      match answer.result with
      | .ok () => some (f', .capsRemoved)
      | .error .ENODATA => some (f', .cleared state modeClear)
      | .error _ => some (f', .idle)
    else .none
  | .capsRemoved => some (f.privsChanged, .idle)
  | .record state => some (f.privsCleared state.seq, .idle)
  | .getCaps state =>
    if state.capsState = .none then some (f, .learned state .none)
    else if answer.gets f.caps then
      match answer.result with
      | .error .ENODATA => some (f, .learned state .none)
      | .ok () | .error .ERANGE => some (f, .learned state .present)
      | .error _ => some (f, .idle)
    else .none
  | .learned state capsState => some (f.capsLearned state.seq capsState, .idle)

/-- A step of a thread: it enters a call, or takes the next step of the one it is in. -/
def step (f : File) (pc : Pc) : Act → Option (File × Pc)
  | .next answer => next f answer pc
  | act =>
    if pc = .idle then
      match act with
      | .setAttr attr => some (f, .setAttr attr .none)
      | .setXattr => some (f, .setXattr)
      | .removeXattr => some (f, .removeXattr)
      | .removePrivs fsetid =>
        some (f, if f.privsClear then .idle else .removePrivs f.privsSnapshot fsetid)
      | .getCaps => some (f, .getCaps f.privsSnapshot)
      | .next _ => .none
    else .none

/-- A call that changes the mode, the owner or the attribute is in progress. -/
def Pc.changing : Pc → Bool
  | setAttr .. | attrSet .. | setXattr | removeXattr | xattrSet => true
  | _ => false

abbrev World (T : Type) := Threads T File Pc

/-! ## What is remembered is true -/

namespace Pc

/-- The snapshot that the thread compares with before it records anything. -/
def state? : Pc → Option State
  | setAttr _ caller | attrSet _ _ caller => caller
  | removePrivs state _ | removeCaps state _ | record state | getCaps state | learned state _ =>
    some state
  | _ => .none

/-- The thread saw a mode without privileges since its snapshot. -/
def sawClean : Pc → Bool
  | removeCaps _ modeClear => modeClear
  | record _ => true
  | _ => false

/-- The thread saw no capability attribute, at its snapshot or since. -/
def sawNoCaps : Pc → Bool
  | setAttr _ (some state) | attrSet _ _ (some state) | removePrivs state _ | removeCaps state _
  | getCaps state => state.capsState = .none
  | record _ => true
  | learned _ capsState => capsState = .none
  | _ => false

/-- The thread has changed the mode or the attribute, and `privs_changed` will follow. -/
def due : Pc → Bool
  | attrSet attr retval _ => retval = .ok () ∧ attr.privs
  | xattrSet => true
  | _ => false

end Pc

open Pc

/-- A clean mode and the absence of the attribute, as far as they are asserted. -/
def Truth (f : File) (clean noCaps : Bool) : Prop :=
  (clean → Clean f.mode) ∧ (noCaps → f.caps = false)

/-- A step after which nothing is less true than before. -/
structure Tame (f f' : File) : Prop where
  seq : f'.privsSeq = f.privsSeq
  changes : f'.changes = f.changes
  clean : Clean f.mode → Clean f'.mode
  caps : f.caps = false → f'.caps = false

theorem Truth.tame (h : Truth f clean noCaps) (hf : Tame f f') : Truth f' clean noCaps :=
  ⟨fun hc => hf.clean (h.1 hc), fun hn => hf.caps (h.2 hn)⟩

namespace World

variable {T : Type}

def step [DecidableEq T] : World T → T × Act → Option (World T) :=
  Threads.step fun _ => Privs.step

def Quiet (w : World T) : Prop := ∀ t, (w.pc t).due = false

structure Inv (w : World T) : Prop where
  seq : w.shared.privsSeq = BitVec.ofNat 32 w.shared.changes
  taken : ∀ t, ∀ state ∈ (w.pc t).state?,
    state.taken ≤ w.shared.changes ∧ state.seq = BitVec.ofNat 32 state.taken
  /-- What the vnode remembers is true, unless a change has yet to be announced. -/
  cached : w.Quiet → Truth w.shared w.shared.privsClear
    (w.shared.privsClear || w.shared.capsState = .none)
  /-- What a thread saw is true, unless a change was announced since or has yet to be. -/
  seen : w.Quiet → ∀ t, ∀ state ∈ (w.pc t).state?, state.taken = w.shared.changes →
    Truth w.shared (w.pc t).sawClean (w.pc t).sawNoCaps

/-- The next step does not meet the defect: no change of the mode that adds privileges fails after
the mode was changed, and no thread records what it saw after the sequence number has come round
to its snapshot's. -/
def SoundNext (f : File) (answer : Answer) : Pc → Prop
  | .setAttr attr _ =>
    answer.refused = .none → (attr.owner → answer.owner) → answer.result ≠ .ok () →
      Clean (attr.applied f.mode) ∨ ¬Clean f.mode
  | .record state | .learned state _ => f.changes < state.taken + 2 ^ 32
  | _ => True

def Sound (w : World T) : T × Act → Prop
  | (t, .next answer) => SoundNext w.shared answer (w.pc t)
  | _ => True

instance (f : File) (answer : Answer) : (p : Pc) → Decidable (SoundNext f answer p)
  | .setAttr _ _ => inferInstanceAs (Decidable (_ → _))
  | .record _ | .learned _ _ => inferInstanceAs (Decidable (_ < _))
  | .idle | .attrSet .. | .setXattr | .removeXattr | .xattrSet | .removePrivs .. | .removeCaps ..
  | .capsRemoved | .getCaps _ => isTrue trivial

instance (w : World T) : (a : T × Act) → Decidable (w.Sound a)
  | (t, .next answer) => inferInstanceAs (Decidable (SoundNext w.shared answer (w.pc t)))
  | (_, .setAttr _) | (_, .setXattr) | (_, .removeXattr) | (_, .removePrivs _) | (_, .getCaps) =>
    isTrue trivial

variable [DecidableEq T] {w w' : World T} {t : T} {f : File} {p q : Pc}

theorem Quiet.of_move (h : Quiet (w.move t f p)) (hp : p.due = false → (w.pc t).due = false) :
    w.Quiet := by
  intro u
  by_cases hu : u = t
  · subst hu
    exact hp (by simpa using h u)
  · exact (move_pc_of_ne hu ▸ h u : _)

theorem Quiet.due (h : Quiet (w.move t f p)) : p.due = false := by
  simpa using h t

/-- A thread's snapshot is not from the future, and has the sequence number of its time. -/
def Taken (f : File) (p : Pc) : Prop :=
  ∀ state ∈ p.state?, state.taken ≤ f.changes ∧ state.seq = BitVec.ofNat 32 state.taken

theorem Taken.mono (h : Taken f p) (hf : f.changes ≤ f'.changes) : Taken f' p :=
  fun state hsta => ⟨Nat.le_trans (h state hsta).1 hf, (h state hsta).2⟩

theorem Inv.taken_move (h : w.Inv) (hf : w.shared.changes ≤ f.changes) (hp : Taken f p) (u : T) :
    Taken f ((w.move t f p).pc u) :=
  move_cases u hp fun _ => Taken.mono (h.taken u) hf

theorem Inv.change (h : w.Inv) (hseq : f.privsSeq = w.shared.privsSeq)
    (hchg : f.changes = w.shared.changes) (hdue : p.due = true) (hpc : w.pc t = q)
    (hp : p.state? = q.state?) : Inv (w.move t f p) where
  seq := by rw [move_shared, hseq, hchg, h.seq]
  taken := h.taken_move (Nat.le_of_eq hchg.symm) (by
    intro state hsta
    exact hchg ▸ h.taken t state (hpc ▸ hp ▸ hsta))
  cached := fun hq => absurd hq.due (by simp [hdue])
  seen := fun hq => absurd hq.due (by simp [hdue])

theorem Inv.bump (h : w.Inv) (hp : ∀ state ∈ p.state?, state ∈ (w.pc t).state?) :
    Inv (w.move t w.shared.privsChanged p) := by
  have hpast : ∀ u, ∀ state ∈ ((w.move t w.shared.privsChanged p).pc u).state?,
      state.taken ≤ w.shared.changes := fun u =>
    move_cases u (fun state hsta => (h.taken t state (hp state hsta)).1)
      fun _ state hsta => (h.taken u state hsta).1
  refine ⟨?_, ?_, fun _ => ⟨by simp [File.privsChanged], by simp [File.privsChanged]⟩, ?_⟩
  · simp [File.privsChanged, h.seq, BitVec.ofNat_add]
  · refine h.taken_move (Nat.le_succ _) fun state hsta => ?_
    exact Taken.mono (h.taken t) (Nat.le_succ _) state (hp state hsta)
  · intro _ u state hsta heq
    -- every snapshot is older than the change
    exact absurd heq (Nat.ne_of_lt (Nat.lt_succ_of_le (hpast u state hsta)))

theorem Inv.keep (h : w.Inv) (hf : Tame w.shared f) (hdue : p.due = false → (w.pc t).due = false)
    (hca : w.Quiet → Truth f f.privsClear (f.privsClear || f.capsState = .none))
    (hp : Taken f p)
    (hsn : w.Quiet → ∀ state ∈ p.state?, state.taken = f.changes →
      Truth f p.sawClean p.sawNoCaps) : Inv (w.move t f p) where
  seq := by rw [move_shared, hf.seq, hf.changes, h.seq]
  taken := h.taken_move (Nat.le_of_eq hf.changes.symm) hp
  cached := fun hq => hca (hq.of_move hdue)
  seen := fun hq u => move_cases u (hsn (hq.of_move hdue))
    fun _ state hsta heq =>
      (h.seen (hq.of_move hdue) u state hsta (heq.trans hf.changes)).tame hf

/-- A step that leaves alone what the vnode remembers, and after which the thread asserts no more
than before. -/
theorem Inv.go (h : w.Inv) (hf : Tame w.shared f) (hclr : f.privsClear = w.shared.privsClear)
    (hcp : f.capsState = w.shared.capsState) (hpc : w.pc t = q)
    (hdue : p.due = false → q.due = false) (hp : ∀ state ∈ p.state?, state ∈ q.state?)
    (hcln : p.sawClean → q.sawClean) (hnone : p.sawNoCaps → q.sawNoCaps) :
    Inv (w.move t f p) := by
  subst hpc
  refine h.keep hf hdue (fun hq => ?_) (fun state hsta => ?_) fun hq state hsta heq => ?_
  · rw [hclr, hcp]
    exact (h.cached hq).tame hf
  · exact hf.changes ▸ h.taken t state (hp state hsta)
  · have := (h.seen hq t state (hp state hsta) (heq.trans hf.changes)).tame hf
    exact ⟨fun hc => this.1 (hcln hc), fun hn => this.2 (hnone hn)⟩

theorem Tame.refl (f : File) : Tame f f := ⟨rfl, rfl, id, id⟩

theorem Inv.stay (h : w.Inv) (hpc : w.pc t = q) (hdue : p.due = false → q.due = false)
    (hp : ∀ state ∈ p.state?, state ∈ q.state?)
    (hcln : p.sawClean → q.sawClean) (hnone : p.sawNoCaps → q.sawNoCaps) :
    Inv (w.move t w.shared p) :=
  h.go (Tame.refl _) rfl rfl hpc hdue hp hcln hnone

theorem Inv.idle (h : w.Inv) (hpc : w.pc t = q) (hdue : q.due = false) :
    Inv (w.move t w.shared .idle) :=
  h.stay hpc (fun _ => hdue) nofun nofun nofun

variable {answer : Answer}

theorem Inv.setAttr (h : w.Inv) (hpc : w.pc t = .setAttr attr caller)
    (hok : w.Sound (t, .next answer)) (hs : next w.shared answer (w.pc t) = some (f, p)) :
    Inv (w.move t f p) := by
  simp only [Sound, hpc] at hok
  simp only [hpc, next] at hs
  split at hs
  · cases hs
    exact h.stay hpc (fun _ => rfl) (fun _ => id) nofun (by cases caller <;> exact id)
  rename_i href
  obtain ⟨rfl, rfl⟩ := hs
  by_cases hdue : (attrSet attr (setAttrLocked w.shared.mode attr answer).1 caller).due
  · exact h.change rfl rfl hdue hpc rfl
  -- nothing will be announced, so nothing may have got worse
  refine h.go ⟨rfl, rfl, ?_, id⟩ rfl rfl hpc (fun _ => rfl) (fun _ => id) nofun
    (by cases caller <;> exact id)
  intro hcln
  simp only [setAttrLocked] at hdue ⊢
  split
  case isTrue => exact hcln
  rename_i hown
  rw [if_neg hown] at hdue
  by_cases hres : answer.result = .ok ()
  · have hprv : attr.privs = false := by simpa [due, hres] using hdue
    have hmode : attr.mode = .none := by simpa using (Bool.or_eq_false_iff.mp hprv).2
    simpa [Attr.applied, hmode] using hcln
  · exact (hok href (by simpa using hown) hres).resolve_right (absurd hcln)

theorem Inv.attrSet (h : w.Inv) (hpc : w.pc t = .attrSet attr retval caller)
    (hs : next w.shared answer (w.pc t) = some (f, p)) : Inv (w.move t f p) := by
  have hp : (∀ state ∈ p.state?, state ∈ caller) ∧ p.due = false ∧ p.sawClean = false ∧
      (p.sawNoCaps → (Pc.attrSet attr retval caller).sawNoCaps) ∧
      f = if retval = .ok () ∧ attr.privs then w.shared.privsChanged else w.shared := by
    simp only [hpc] at hs
    cases caller with
    | none => cases hs; exact ⟨nofun, rfl, rfl, nofun, rfl⟩
    | some state =>
      cases hs
      split
      · exact ⟨fun _ => id, rfl, rfl, id, rfl⟩
      · exact ⟨nofun, rfl, rfl, nofun, rfl⟩
  obtain ⟨hsta, hdue, hcln, hnone, rfl⟩ := hp
  split
  · exact h.bump (hpc ▸ hsta)
  case isFalse hqui =>
    exact h.stay hpc (fun _ => decide_eq_false hqui) hsta (by simp [hcln]) hnone

theorem Tame.removes (h : answer.removes f.caps) :
    Tame f { f with caps := answer.caps } :=
  ⟨rfl, rfl, id, fun hcp => by simpa [hcp] using h.1⟩

theorem Inv.removeCaps (h : w.Inv) (hpc : w.pc t = .removeCaps state modeClear)
    (hs : next w.shared answer (w.pc t) = some (f, p)) : Inv (w.move t f p) := by
  simp only [hpc, next] at hs
  -- the call goes on to record what it saw, if that is all there is to see
  have hcld {f' : File} (hf : Tame w.shared f') (hclr : f'.privsClear = w.shared.privsClear)
      (hcp : f'.capsState = w.shared.capsState)
      (hnone : w.Quiet → state.taken = w.shared.changes → f'.caps = false) :
      Inv (w.move t f' (.cleared state modeClear)) := by
    refine h.keep hf (by simp [hpc, due]) (fun hq => ?_) ?_ fun hq => ?_
    · rw [hclr, hcp]
      exact Truth.tame (h.cached hq) hf
    · unfold cleared
      split
      · exact Taken.mono (p := .removeCaps state modeClear) (hpc ▸ h.taken t)
          (Nat.le_of_eq hf.changes.symm)
      · nofun
    · unfold cleared
      split
      case isFalse => nofun
      rename_i hmode
      intro state' hsta heq
      cases hsta
      have htkn := heq.trans hf.changes
      have := Truth.tame (h.seen hq t state (by simp [hpc, state?]) htkn) hf
      exact ⟨fun _ => this.1 (by simpa [hpc, sawClean] using hmode), fun _ => hnone hq htkn⟩
  split at hs
  case isTrue hsta =>
    cases hs
    refine hcld (Tame.refl _) rfl rfl fun hq htkn => ?_
    have := h.seen hq t state (by simp [hpc, state?]) htkn
    exact this.2 (by simp [hpc, sawNoCaps, hsta])
  obtain ⟨hremoves, hs⟩ := Option.ite_none_right_eq_some.mp hs
  have htame := Tame.removes hremoves
  split at hs
  case h_1 =>
    cases hs
    exact h.go htame rfl rfl hpc (fun _ => rfl) nofun nofun nofun
  case h_2 hres =>
    cases hs
    exact hcld htame rfl rfl fun _ _ => htame.caps (hremoves.2.2 hres)
  case h_3 =>
    cases hs
    exact h.go htame rfl rfl hpc (fun _ => rfl) nofun nofun nofun

section
variable (h : w.Inv)
include h

variable {state : State}

omit [DecidableEq T] in
/-- Within one round of the sequence number, an equal one means that nothing was announced. -/
theorem Inv.current (hsta : state ∈ (w.pc t).state?)
    (hround : w.shared.changes < state.taken + 2 ^ 32) (hseq : w.shared.privsSeq = state.seq) :
    state.taken = w.shared.changes := by
  obtain ⟨hle, hs⟩ := h.taken t state hsta
  rw [h.seq, hs] at hseq
  have hmod := congrArg BitVec.toNat hseq
  simp only [BitVec.toNat_ofNat] at hmod
  omega

/-- A call ends by noting what it saw, if nothing was announced since its snapshot. -/
theorem Inv.note (hsta : state ∈ (w.pc t).state?)
    (hround : w.shared.changes < state.taken + 2 ^ 32) (hdue : (w.pc t).due = false)
    (hf : Tame w.shared f) (hca : Truth w.shared (w.pc t).sawClean (w.pc t).sawNoCaps →
      w.Quiet → Truth f f.privsClear (f.privsClear || f.capsState = .none)) :
    Inv (w.move t (if w.shared.privsSeq = state.seq then f else w.shared) .idle) := by
  split
  case isTrue hseq =>
    refine h.keep hf (fun _ => hdue) (fun hq => hca ?_ hq) nofun nofun
    exact h.seen hq t state hsta (h.current hsta hround hseq)
  case isFalse => exact h.idle rfl hdue

section
variable {answer : Answer} (hs : next w.shared answer (w.pc t) = some (f, p))
include hs

theorem Inv.record (hpc : w.pc t = .record state) (hok : w.Sound (t, .next answer)) :
    Inv (w.move t f p) := by
  simp only [Sound, hpc] at hok
  simp only [hpc] at hs
  cases hs
  refine h.note (by simp [hpc, state?]) hok (by simp [hpc, due]) ⟨rfl, rfl, id, id⟩ ?_
  rintro hsn -
  rw [hpc] at hsn
  exact ⟨fun _ => hsn.1 rfl, fun _ => hsn.2 rfl⟩

theorem Inv.learned (hpc : w.pc t = .learned state capsState) (hok : w.Sound (t, .next answer)) :
    Inv (w.move t f p) := by
  simp only [Sound, hpc] at hok
  simp only [hpc] at hs
  cases hs
  refine h.note (by simp [hpc, state?]) hok (by simp [hpc, due]) ⟨rfl, rfl, id, id⟩ ?_
  intro hsn hq
  rw [hpc] at hsn
  refine ⟨(h.cached hq).1, fun hnone => ?_⟩
  rcases Bool.or_eq_true_iff.mp hnone with hclr | hcp
  · exact (h.cached hq).2 (by simp [show w.shared.privsClear = true from hclr])
  · exact hsn.2 hcp

theorem Inv.getCaps (hpc : w.pc t = .getCaps state) : Inv (w.move t f p) := by
  simp only [hpc, next] at hs
  split at hs
  case isTrue hnone =>
    cases hs
    exact h.stay hpc (fun _ => rfl) (fun _ => id) nofun fun _ => decide_eq_true hnone
  obtain ⟨hgets, hs⟩ := Option.ite_none_right_eq_some.mp hs
  split at hs
  case h_1 hres =>
    cases hs
    refine h.keep (Tame.refl _) (by simp [hpc, due]) h.cached ?_ fun _ _ _ _ => ?_
    · exact fun state' hsta => h.taken t state' (by simpa [hpc, state?] using hsta)
    · exact ⟨nofun, fun _ => hgets.1 hres⟩
  case h_2 | h_3 =>
    cases hs
    exact h.stay hpc (fun _ => rfl) (fun _ => id) nofun nofun
  case h_4 =>
    cases hs
    exact h.idle hpc rfl

theorem Inv.removePrivs (hpc : w.pc t = .removePrivs state fsetid) : Inv (w.move t f p) := by
  simp only [hpc, next] at hs
  have hdue : (w.pc t).due = false := by simp [hpc, due]
  split at hs
  · cases hs
    exact h.idle hpc rfl
  split at hs
  case isTrue hcln =>
    cases hs
    refine h.keep (Tame.refl _) (fun _ => hdue) h.cached ?_ fun hq state' hsta heq => ?_
    · exact fun state' hsta => h.taken t state' (by simpa [hpc, state?] using hsta)
    · have hsn := h.seen hq t state' (by simpa [hpc, state?] using hsta) heq
      exact ⟨fun _ => hcln, fun hn => hsn.2 (by simpa [hpc, sawNoCaps] using hn)⟩
  split at hs
  · cases hs
    exact h.stay hpc (fun _ => rfl) (fun _ => id) nofun id
  · cases hs
    exact h.stay hpc (fun _ => rfl) (fun _ => id) nofun id

theorem Inv.next (hok : w.Sound (t, .next answer)) : Inv (w.move t f p) := by
  cases hpc : w.pc t with
  | idle => rw [hpc] at hs; cases hs
  | setAttr attr caller => exact h.setAttr hpc hok hs
  | attrSet attr retval caller => exact h.attrSet hpc hs
  | setXattr =>
    simp only [hpc, Privs.next] at hs
    split at hs
    · cases hs
      exact h.idle hpc rfl
    · cases hs
      exact h.change rfl rfl rfl hpc rfl
  | removeXattr =>
    simp only [hpc, Privs.next] at hs
    split at hs
    · cases hs
      exact h.idle hpc rfl
    · obtain ⟨-, hs⟩ := of_guard hs
      cases hs
      exact h.change rfl rfl rfl hpc rfl
  | xattrSet | capsRemoved =>
    rw [hpc] at hs
    cases hs
    exact h.bump nofun
  | removePrivs state fsetid => exact h.removePrivs hs hpc
  | removeCaps state modeClear => exact h.removeCaps hpc hs
  | record state => exact h.record hs hpc hok
  | getCaps state => exact h.getCaps hs hpc
  | learned state capsState => exact h.learned hs hpc hok

end

theorem Inv.snapshot (hpc : w.pc t = .idle) (hp : p.state? = some w.shared.privsSnapshot)
    (hcln : p.sawClean = false)
    (hnone : p.sawNoCaps → w.shared.capsState = .none) : Inv (w.move t w.shared p) := by
  refine h.keep (Tame.refl _) (by simp [hpc, due]) h.cached ?_ fun hq _ _ _ => ?_
  · intro state hsta
    obtain rfl : w.shared.privsSnapshot = state := by simpa [hp] using hsta
    exact ⟨Nat.le_refl _, h.seq⟩
  · exact ⟨by simp [hcln], fun hn => (h.cached hq).2 (by simp [hnone hn])⟩

theorem Inv.step (hok : w.Sound a) (hst : w.step a = some w') : w'.Inv := by
  obtain ⟨t, act⟩ := a
  obtain ⟨f, p, hs, rfl⟩ := step_cases hst
  cases act with
  | next answer => exact h.next hs hok
  | setAttr | setXattr | removeXattr =>
    obtain ⟨hpc, ⟨⟩⟩ := of_guard hs
    exact h.stay hpc (fun _ => rfl) nofun nofun nofun
  | removePrivs fsetid =>
    obtain ⟨hpc, ⟨⟩⟩ := of_guard hs
    split
    · exact h.idle hpc rfl
    · exact h.snapshot hpc rfl rfl of_decide_eq_true
  | getCaps =>
    obtain ⟨hpc, ⟨⟩⟩ := of_guard hs
    exact h.snapshot hpc rfl rfl of_decide_eq_true

end

/-- A vnode that was just filled. -/
structure Fresh (w : World T) : Prop where
  idle : ∀ t, w.pc t = .idle
  clear : w.shared.privsClear = false
  caps : w.shared.capsState = .unknown
  seq : w.shared.privsSeq = 0 ∧ w.shared.changes = 0

omit [DecidableEq T] in
theorem Fresh.inv (h : w.Fresh) : w.Inv where
  seq := by rw [h.seq.1, h.seq.2]; rfl
  taken := fun t => by rw [h.idle t]; nofun
  cached := fun _ => by simp [Truth, h.clear, h.caps]
  seen := fun _ t => by rw [h.idle t]; nofun

/-- **Cached "no privileges" is never stale**, if no change that adds privileges to a mode without
any fails after the mode was changed, and no call takes as long as the sequence number needs to
come round. -/
theorem privs_clear_never_stale {acts : List (T × Act)} (h : w.Fresh)
    (hrun : Run (Under Sound (Advances step)) w acts w')
    (hquiet : ∀ t, (w'.pc t).changing = false) :
    (w'.shared.privsClear → Clean w'.shared.mode ∧ w'.shared.caps = false) ∧
      (w'.shared.capsState = .none → w'.shared.caps = false) := by
  have hinv := hrun.invariant (fun h hs => h.step hs.1 hs.2) h.inv
  have hdue : w'.Quiet := fun t => by
    have := hquiet t
    cases hpc : w'.pc t <;> simp_all [changing, due]
  obtain ⟨hclean, hcaps⟩ := hinv.cached hdue
  exact ⟨fun hclear => ⟨hclean hclear, hcaps (by simp [hclear])⟩,
    fun hnone => hcaps (by simp [hnone])⟩

/-- An operation that succeeds and finds, or leaves, no attribute. -/
def fine : Act := .next { refused := .none, owner := true, result := .ok (), caps := false }

def failing (e : Errno) : Act :=
  .next { refused := .none, owner := true, result := .error e, caps := false }

/-- A program without privileges, which one thread writes to and another one makes set-uid. -/
def plainProgram : World (Fin 2) where
  shared := { mode := 0x81ED, caps := false, privsSeq := 0, capsState := .unknown,
              privsClear := false, changes := 0 }
  pc := fun _ => .idle

/-- `vnode_remove_privs` finds nothing to remove, and records it. -/
def firstWrite : List (Fin 2 × Act) :=
  [(0, .removePrivs false), (0, fine), (0, failing .ENODATA), (0, fine)]

def makeSetuid (write : Act) : List (Fin 2 × Act) :=
  [(1, .setAttr { owner := false, mode := some 0x89ED }), (1, write), (1, fine)]

theorem privs_clear_never_stale_setuid :
    ∃ w', Run (Under Sound (Advances step)) plainProgram
        (firstWrite ++ makeSetuid fine) w' ∧ w'.shared.mode = 0x89ED ∧
      (w'.shared.privsClear → Clean w'.shared.mode ∧ w'.shared.caps = false) ∧
      (w'.shared.capsState = .none → w'.shared.caps = false) := by
  have hrun : Run (Under Sound (Advances step)) plainProgram (firstWrite ++ makeSetuid fine) _ :=
    Run.of_foldlM_under rfl
  exact ⟨_, hrun, rfl, privs_clear_never_stale ⟨fun _ => rfl, rfl, rfl, rfl, rfl⟩ hrun (by decide)⟩

/-- The write of the inode fails after its mode was changed: the program is set-uid, and every
later write leaves it so. -/
theorem failed_chmod_leaves_clear :
    ∃ w', Run (Advances step) plainProgram
        (firstWrite ++ makeSetuid (failing Errno.EIO)) w' ∧ (∀ t, w'.pc t = .idle) ∧
      w'.shared.privsClear = true ∧ w'.shared.mode = 0x89ED ∧ ¬Clean w'.shared.mode :=
  ⟨_, Run.of_foldlM rfl, by decide, rfl, rfl, by decide⟩

end World

end Vex.Fs.Privs
