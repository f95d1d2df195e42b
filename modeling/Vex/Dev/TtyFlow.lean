import Vex.Dev.TtyInput
import Vex.Lib.Run

/-! Flow control of terminal input: with `IXOFF` the sender is stopped when the ring is nearly full
and there is a reader to empty it, and started again when half of the ring is free. -/

namespace Vex.Dev.Tty

open Discipline List

abbrev STOP_ROOM : Nat := 256
abbrev START_ROOM : Nat := TTY_RING_SIZE / 2

/-- The discipline with what flow control adds to it: the flag of `c_iflag`, `input_stopped`, and
the characters put ahead of the output. -/
structure Flow where
  input : Discipline
  ixoff : Bool
  inputStopped : Bool
  ahead : List UInt8

namespace Flow

def init (data : Nat → UInt8) (termios : Termios) (ixoff : Bool) : Flow :=
  ⟨.init data termios, ixoff, false, []⟩

variable (s : Flow)

/-- `tty_discipline_readable`. -/
def readable : Nat := (s.input.lineEnd - s.input.head).toNat

def room : Nat := s.input.ringRoom.toNat

def sendFlowCharacter (index : Special) : Flow :=
  let special := s.input.termios.cc index
  { s with ahead := if special ≠ POSIX_VDISABLE then s.ahead ++ [special] else s.ahead }

def updateInputFlow : Flow :=
  if s.inputStopped then
    if s.room ≥ START_ROOM ∨ !s.ixoff then
      sendFlowCharacter { s with inputStopped := false } .start
    else s
  else if s.ixoff ∧ s.room < STOP_ROOM ∧ s.readable ≠ 0 then
    sendFlowCharacter { s with inputStopped := true } .stop
  else s

/-- A call, with the `IXOFF` of the settings if it is `tty_discipline_set_termios`. Every call ends
with an update; the one of a flush inside a call is the same, as nothing is stored after it. -/
def apply (call : TtyOp × Bool) : Flow :=
  updateInputFlow { s with
    input := s.input.apply call.1
    ixoff := match call.1 with
      | .setTermios _ => call.2
      | _ => s.ixoff }

/-- A stopped sender can be started: `IXOFF` is set, and a reader can make room or the next update
sends VSTART. -/
def Startable : Prop :=
  s.inputStopped → s.ixoff ∧ (0 < s.readable ∨ START_ROOM ≤ s.room ∧
    s.updateInputFlow = sendFlowCharacter { s with inputStopped := false } .start)

/-! ## Updates -/

theorem updateInputFlow_input : s.updateInputFlow.input = s.input := by
  rw [updateInputFlow]
  split <;> split <;> rfl

theorem updateInputFlow_ixoff : s.updateInputFlow.ixoff = s.ixoff := by
  rw [updateInputFlow]
  split <;> split <;> rfl

theorem updateInputFlow_inputStopped : s.updateInputFlow.inputStopped ↔
    s.ixoff ∧ if s.inputStopped then s.room < START_ROOM
      else s.room < STOP_ROOM ∧ s.readable ≠ 0 := by
  rw [updateInputFlow]
  split
  case isTrue =>
    split
    case isTrue hsta =>
      refine iff_of_false nofun fun h => ?_
      rcases hsta with hrm | hoff
      · exact absurd h.2 (Nat.not_lt_of_le hrm)
      · simp [h.1] at hoff
    case isFalse hsty =>
      obtain ⟨hrm, hixo⟩ := not_or.mp hsty
      exact iff_of_true ‹_› ⟨by simpa using hixo, Nat.lt_of_not_le hrm⟩
  case isFalse hgoes =>
    split
    case isTrue hsp => exact iff_of_true rfl hsp
    case isFalse hsp => exact iff_of_false hgoes hsp

/-! ## Every run -/

variable {s}

/-- A read that takes the last bytes that can be read while the sender is stopped leaves at most
half of the ring: the line being edited. -/
def LeavesRoom (s : Flow) : TtyOp × Bool → Prop
  | (.read size, _) => s.inputStopped → (s.input.read size).2.2.ready = [] →
      s.input.editing.length ≤ START_ROOM
  | _ => True

/-- The calls that leave room. -/
abbrev Step : Flow → TtyOp × Bool → Flow → Prop :=
  Lib.Under LeavesRoom fun s call s' => s.apply call = s'

/-- A sender is stopped only as long as there is something to read. -/
structure Inv (s : Flow) : Prop where
  ordered : Ordered s.input
  stopped : s.inputStopped → s.ixoff ∧ s.input.ready ≠ []

theorem Inv.apply (h : Inv s) (hok : s.LeavesRoom call) : Inv (s.apply call) := by
  obtain ⟨op, ixoff⟩ := call
  obtain ⟨hord, hkps⟩ := h.ordered.step op
  rw [Flow.apply]
  refine ⟨(updateInputFlow_input _).symm ▸ hord, fun hstp => ?_⟩
  obtain ⟨hixo, hrm⟩ := (updateInputFlow_inputStopped _).mp hstp
  rw [updateInputFlow_ixoff, updateInputFlow_input]
  refine ⟨hixo, fun hnil => ?_⟩
  have hnil : (s.input.apply op).ready = [] := hnil
  by_cases hwas : s.inputStopped
  · rw [if_pos hwas] at hrm
    have hln : ¬(s.input.apply op).editing.length ≤ START_ROOM := by
      have hfree := hord.room
      rw [hnil, length_nil] at hfree
      simp only [room, hfree, START_ROOM, TTY_RING_SIZE] at hrm ⊢
      omega
    cases op with
    | read size =>
      obtain ⟨k, -, -, hsame⟩ := hkps
      exact hln (hsame ▸ hok hwas hnil)
    | receive | flushInput | setTermios =>
      rcases hkps with hpre | ⟨-, hflu⟩
      · exact (h.stopped hwas).2 (prefix_nil.mp (hnil ▸ hpre))
      · rw [hflu, (Edits.flushInput s.input).editing_eq] at hln
        exact hln (Nat.zero_le _)
  · -- it is stopped now, for what can be read
    rw [if_neg hwas] at hrm
    exact hrm.2 (hord.lineEnd_sub.trans (length_eq_zero_iff.mpr hnil))

/-- A stopped sender can be started, if no read of the last finished line leaves more than half of
the ring to the line being edited. -/
theorem stopped_sender_startable (data : Nat → UInt8) (termios : Termios) (ixoff : Bool)
    (hrun : Lib.Run Step (init data termios ixoff) calls s) : s.Startable := by
  have h : Inv s := by
    refine hrun.invariant (fun h hs => ?_) ⟨.init data termios, nofun⟩
    obtain ⟨hok, rfl⟩ := hs
    exact h.apply hok
  refine fun hstopped => ⟨(h.stopped hstopped).1, .inl ?_⟩
  rw [readable, h.ordered.lineEnd_sub]
  exact length_pos_iff.mpr (h.stopped hstopped).2

/-! ## A sender that stays stopped -/

/-- An empty line and `k` letters of the next one. -/
def typed (k : Nat) : Flow :=
  ((.receive 10 .none, true) :: replicate k (.receive 97 .none, true)).foldl apply
    (init (fun _ => 0) defaultTermios true)

variable {d : Discipline} {ready line : List Cell} {k : Nat}

/-- The settings and the state of the default terminal, for which a letter is no special byte. -/
def Plain (d : Discipline) : Prop :=
  d.termios = defaultTermios ∧ d.literalNext = false ∧ d.escaped = false

theorem Plain.receive (hd : Plain d) (h : Edits d ready line)
    (hrm : ready.length + line.length + 1 < TTY_RING_SIZE) :
    d.receive 97 .none = d.store 97 false := by
  obtain ⟨hter, hnx, hescaped⟩ := hd
  have hflg : d.termios.istrip = false ∧ d.termios.iuclc = false ∧ d.termios.icanon = true ∧
      d.termios.parmrk = false := by rw [hter]; decide
  have hlet : ∀ index, d.termios.isSpecial 97 index = false := by
    rw [hter]
    rintro (_ | _) <;> decide
  have hfits : d.inputFits 1 := by
    have hfree := h.room
    have hln := h.tail_sub_lineEnd
    simp only [Discipline.inputFits, hflg, MAX_CANON, if_true, Bool.and_eq_true,
      decide_eq_true_eq, TTY_RING_SIZE] at *
    constructor <;> bv_omega
  simp [Discipline.receive, receiveByte, flowControl, signalCharacter, signalOf,
    Discipline.translate, receiveCanonical, putData, endRawData, store, hnx, hescaped, hflg,
    hlet, hfits]

theorem typed_spec (hk : k ≤ 3840) :
    Edits (typed k).input [(10, true)] (replicate k (97, false)) ∧ Plain (typed k).input ∧
      (typed k).ixoff ∧ (3840 ≤ k → (typed k).inputStopped) := by
  induction k with
  | zero =>
    have hen := (Ordered.init (fun _ => 0) defaultTermios).ends 10 (by decide)
    exact ⟨hen, ⟨rfl, rfl, rfl⟩, rfl, by simp⟩
  | succ k ih =>
    obtain ⟨h, hpln, hixo, -⟩ := ih (by omega)
    have hrm : 1 + (replicate k ((97, false) : Cell)).length + 1 < TTY_RING_SIZE := by
      simp only [length_replicate, TTY_RING_SIZE]
      omega
    have hst : typed (k + 1) = updateInputFlow
        { typed k with input := (typed k).input.store 97 false } := by
      rw [← hpln.receive h hrm]
      simp only [typed, replicate_succ', foldl_cons, foldl_append]
      rfl
    have hedits : Edits ((typed k).input.store 97 false) [(10, true)]
        (replicate (k + 1) (97, false)) := by
      rw [replicate_succ']
      refine ⟨h.store (Nat.lt_of_succ_lt hrm) 97 false, fun hraw => ?_, fun _ => ?_⟩
      · rw [store, hpln.1] at hraw
        cases hraw
      · rwa [length_append, ← Nat.add_assoc]
    rw [hst, updateInputFlow_inputStopped, updateInputFlow_input, updateInputFlow_ixoff]
    refine ⟨hedits, hpln, hixo, fun hlast => ⟨hixo, ?_⟩⟩
    simp only [room, readable, hedits.room, hedits.lineEnd_sub, length_replicate, TTY_RING_SIZE]
    split
    · change 4096 - (1 + (k + 1)) < 2048
      omega
    · exact ⟨show 4096 - (1 + (k + 1)) < 256 by omega, by decide⟩

theorem run_foldl (hok : ∀ call ∈ calls, ∀ s, LeavesRoom s call) (s : Flow) :
    Lib.Run Step s calls (calls.foldl apply s) := by
  induction calls generalizing s with
  | nil => exact .nil
  | cons call calls ih =>
    exact .cons ⟨hok call (by simp) s, rfl⟩ (ih (fun c hc => hok c (by simp [hc])) _)

/-- The full ring stops the sender, and the empty line can be read. -/
theorem stopped_sender_startable_typed : (typed 3840).inputStopped ∧ (typed 3840).Startable := by
  refine ⟨(typed_spec le_rfl).2.2.2 le_rfl, ?_⟩
  refine stopped_sender_startable _ _ _ (run_foldl (fun call hcall s => ?_) _)
  rcases mem_cons.mp hcall with rfl | hletter
  · trivial
  · cases eq_of_mem_replicate hletter
    trivial

theorem typed_read (hk : k = 3840) : ¬((typed k).apply (.read 1, true)).Startable := by
  obtain ⟨h, -, hixo, hstp⟩ := typed_spec hk.le
  specialize hstp hk.ge
  generalize typed k = s at *
  have hrd : (s.input.read 1).2.2 = { s.input with head := s.input.head + 1 } := by
    rw [Discipline.read, readLoop, if_neg (by simp [h.head_eq_lineEnd_iff])]
    dsimp only
    split
    · rfl
    split <;> rfl
  have hleft := h.take.2
  rw [← hrd] at hleft
  have hrm : (s.input.read 1).2.2.ringRoom.toNat < START_ROOM := by
    rw [hleft.room, length_replicate, hk]
    decide
  intro hsta
  have hsty : (s.apply (.read 1, true)).inputStopped := by
    refine (updateInputFlow_inputStopped _).mpr ⟨hixo, ?_⟩
    rw [if_pos hstp]
    exact hrm
  have hinput : (s.apply (.read 1, true)).input = (s.input.read 1).2.2 := updateInputFlow_input _
  rcases (hsta hsty).2 with hpos | ⟨hge, -⟩
  · rw [readable, hinput, hleft.lineEnd_sub] at hpos
    cases hpos
  · rw [room, hinput] at hge
    omega

/-- The line that can be read is read, and the sender is not started: the other one, which only
the sender can finish, takes more than half of the ring. -/
theorem long_line_keeps_sender_stopped : ¬((typed 3840).apply (.read 1, true)).Startable :=
  typed_read rfl

end Flow

end Vex.Dev.Tty
