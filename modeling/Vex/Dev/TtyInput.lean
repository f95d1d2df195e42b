import Vex.Dev.TtyDiscipline

/-! The input ring of a terminal holds what can be read and, behind it, the line being edited. The
calls of the discipline add to the first or take from its front, and edit the second alone. -/

namespace Vex.Dev.Tty

open Lib Libk Discipline BitVec Discipline

/-- A byte of the ring with its delimiter bit. -/
abbrev Cell := UInt8 × Bool

namespace Discipline

def cell (d : Discipline) (i : Nat) : Cell := (d.data i, d.delimiters i)

/-- What can be read. -/
def ready (d : Discipline) : List Cell :=
  span TTY_RING_SIZE d.cell d.head (d.lineEnd - d.head).toNat

/-- The line being edited. -/
def editing (d : Discipline) : List Cell :=
  span TTY_RING_SIZE d.cell d.lineEnd (d.tail - d.lineEnd).toNat

end Discipline

theorem size_dvd : TTY_RING_SIZE ∣ 2 ^ 32 := by decide

/-- The ring holds these two lists, one after the other. -/
structure Holds (d : Discipline) (ready line : List Cell) : Prop where
  lineEnd : d.lineEnd = d.head + BitVec.ofNat 32 ready.length
  tail : d.tail = d.lineEnd + BitVec.ofNat 32 line.length
  le : ready.length + line.length ≤ TTY_RING_SIZE
  cells : span TTY_RING_SIZE d.cell d.head (ready.length + line.length) = ready ++ line

variable {d d' : Discipline} {ready line : List Cell}

namespace Holds

section

variable (h : Holds d ready line)
include h

theorem tail_eq : d.tail = d.head + BitVec.ofNat 32 (ready.length + line.length) := by
  rw [h.tail, h.lineEnd, add_assoc, ofNat_add]

theorem lineEnd_sub : (d.lineEnd - d.head).toNat = ready.length := by
  have := h.le
  rw [h.lineEnd, toNat_add_sub (by simp only [TTY_RING_SIZE] at this; omega)]

theorem tail_sub : (d.tail - d.head).toNat = ready.length + line.length := by
  have := h.le
  rw [h.tail_eq, toNat_add_sub (by simp only [TTY_RING_SIZE] at this; omega)]

theorem tail_sub_lineEnd : (d.tail - d.lineEnd).toNat = line.length := by
  have := h.le
  rw [h.tail, toNat_add_sub (by simp only [TTY_RING_SIZE] at this; omega)]

theorem tail_eq_lineEnd_iff : d.tail = d.lineEnd ↔ line = [] := by
  rw [← List.length_eq_zero_iff, ← h.tail_sub_lineEnd]
  constructor
  · intro heq
    rw [heq, sub_self]
    rfl
  · bv_omega

theorem head_eq_lineEnd_iff : d.head = d.lineEnd ↔ ready = [] := by
  rw [← List.length_eq_zero_iff, ← h.lineEnd_sub]
  constructor
  · intro heq
    rw [heq, sub_self]
    rfl
  · bv_omega

theorem ready_eq : d.ready = ready := by
  have hcel := h.cells
  rw [span_add size_dvd] at hcel
  rw [Discipline.ready, h.lineEnd_sub]
  exact (List.append_inj hcel (by simp)).1

theorem editing_eq : d.editing = line := by
  have hcel := h.cells
  rw [span_add size_dvd, ← h.lineEnd] at hcel
  rw [editing, h.tail_sub_lineEnd]
  exact (List.append_inj hcel (by simp)).2

theorem room : d.ringRoom.toNat = TTY_RING_SIZE - (ready.length + line.length) := by
  have hle := h.le
  have hsub := h.tail_sub
  rw [ringRoom]
  simp only [TTY_RING_SIZE] at *
  rw [toNat_sub_of_le (by rw [le_def, hsub]; simpa using hle), hsub]
  rfl

theorem store (hrm : ready.length + line.length < TTY_RING_SIZE) (byte : UInt8) (delimiter : Bool)
    : Holds (d.store byte delimiter) ready (line ++ [(byte, delimiter)]) := by
  have hidx : d.tail.toNat % TTY_RING_SIZE =
      (d.head.toNat + (ready.length + line.length)) % TTY_RING_SIZE := by
    rw [h.tail_eq, toNat_add_mod size_dvd]
  have hcell : (d.store byte delimiter).cell = Function.update d.cell
      ((d.head.toNat + (ready.length + line.length)) % TTY_RING_SIZE) (byte, delimiter) := by
    rw [← hidx]
    funext i
    simp only [cell, Discipline.store, Function.update_apply]
    split <;> rfl
  refine ⟨h.lineEnd, ?_, by rw [List.length_append, List.length_singleton]; omega, ?_⟩
  · change d.tail + 1 = d.lineEnd + _
    rw [h.tail, List.length_append, ofNat_add, add_assoc]
    rfl
  · rw [hcell, List.length_append]
    change span _ _ d.head (ready.length + line.length + 1) = _
    rw [span_put hrm, h.cells, List.append_assoc]

theorem cut (hk : k ≤ line.length) :
    Holds { d with tail := d.lineEnd + BitVec.ofNat 32 k } ready (line.take k) := by
  have hlen : (line.take k).length = k := by rw [List.length_take]; omega
  have hle := h.le
  refine ⟨h.lineEnd, by rw [hlen], by omega, ?_⟩
  have hcel := h.cells
  rw [show ready.length + line.length = ready.length + k + (line.length - k) by omega,
    span_add size_dvd] at hcel
  have hspl : ready ++ line = (ready ++ line.take k) ++ line.drop k := by simp
  rw [hspl] at hcel
  rw [hlen]
  exact (List.append_inj hcel (by rw [length_span, List.length_append, hlen])).1

theorem finish : Holds { d with lineEnd := d.tail } (ready ++ line) [] := by
  refine ⟨?_, by simp, by simpa using h.le, ?_⟩
  · rw [List.length_append]
    exact h.tail_eq
  · rw [List.append_nil, List.length_append]
    exact h.cells

end

theorem empty (d : Discipline) (h : d.head = d.lineEnd) (h' : d.tail = d.lineEnd) :
    Holds d [] [] := by
  refine ⟨?_, ?_, by simp, rfl⟩
  · simp [h]
  · simp [h']

theorem take (h : Holds d (c :: ready) line) :
    d.cell (d.head.toNat % TTY_RING_SIZE) = c ∧
      Holds { d with head := d.head + 1 } ready line := by
  have hcel := h.cells
  rw [List.length_cons, show ready.length + 1 + line.length = 1 + (ready.length + line.length)
    by omega, span_add size_dvd] at hcel
  have hspl : c :: ready ++ line = [c] ++ (ready ++ line) := rfl
  rw [hspl] at hcel
  obtain ⟨hfst, hrs⟩ := List.append_inj hcel (by simp)
  have hle := h.le
  rw [List.length_cons] at hle
  refine ⟨?_, ?_, h.tail, by omega, hrs⟩
  · simpa [span] using hfst
  rw [h.lineEnd, List.length_cons, ofNat_add, add_assoc]
  congr 1
  exact add_comm ..

theorem of_eq (h : Holds d ready line) (hcell : d'.cell = d.cell) (hhd : d'.head = d.head)
    (htl : d'.tail = d.tail) (hle : d'.lineEnd = d.lineEnd) : Holds d' ready line := by
  refine ⟨?_, ?_, h.le, ?_⟩
  · rw [hle, hhd, h.lineEnd]
  · rw [htl, hle, h.tail]
  · rw [hcell, hhd, h.cells]

end Holds

/-! ## The invariant -/

/-- Only a canonical line is edited, and one that has been started leaves room for its end. -/
structure Edits (d : Discipline) (ready line : List Cell) : Prop extends Holds d ready line where
  raw : d.termios.icanon = false → line = []
  free : line ≠ [] → ready.length + line.length < TTY_RING_SIZE

/-- What can be read stays and may grow. -/
def Adds (ready : List Cell) (d' : Discipline) : Prop :=
  ∃ ready' line', Edits d' ready' line' ∧ ready <+: ready'

theorem Holds.endRawData (h : Holds d ready line)
    (hfree : d.termios.icanon → line ≠ [] → ready.length + line.length < TTY_RING_SIZE) :
    Adds ready d.endRawData := by
  rw [Discipline.endRawData]
  split
  · rename_i hcan
    refine ⟨ready, line, ⟨h, ?_, hfree hcan⟩, List.prefix_refl _⟩
    rw [hcan]
    exact fun hraw => absurd hraw (by decide)
  · exact ⟨_, [], ⟨h.finish, fun _ => rfl, fun hne => absurd rfl hne⟩, List.prefix_append ..⟩

namespace Edits

variable (h : Edits d ready line)
include h

theorem adds : Adds ready d := ⟨ready, line, h, List.prefix_refl _⟩

theorem of_eq (d' : Discipline) (hter : d'.termios = d.termios) (hcell : d'.cell = d.cell)
    (hhd : d'.head = d.head) (htl : d'.tail = d.tail) (hle : d'.lineEnd = d.lineEnd) :
    Edits d' ready line where
  toHolds := h.toHolds.of_eq hcell hhd htl hle
  raw := by rw [hter]; exact h.raw
  free := h.free

theorem cut (hk : k ≤ line.length) :
    Edits { d with tail := d.lineEnd + BitVec.ofNat 32 k } ready (line.take k) where
  toHolds := h.toHolds.cut hk
  raw hraw := by rw [h.raw hraw, List.take_nil]
  free hne := by
    have hln : line ≠ [] := by
      rintro rfl
      exact hne (List.take_nil ..)
    have := h.free hln
    rw [List.length_take]
    omega

omit h in
theorem flushInput (d : Discipline) : Edits d.flushInput [] [] :=
  ⟨Holds.empty _ rfl rfl, fun _ => rfl, fun hne => absurd rfl hne⟩

/-! ### Storing -/

theorem inputFits (hcnt : count ≤ 3) (hfits : d.inputFits count) :
    ready.length + line.length + count ≤ TTY_RING_SIZE ∧
      (d.termios.icanon → ready.length + line.length + count < TTY_RING_SIZE) := by
  have hrm := h.room
  have hle := h.le
  rw [Discipline.inputFits] at hfits
  split at hfits
  · simp only [lt_def, Bool.and_eq_true, decide_eq_true_eq, toNat_ofNat] at hfits
    omega
  · rename_i hraw
    simp only [le_def, decide_eq_true_eq, toNat_ofNat] at hfits
    refine ⟨by omega, fun hcan => absurd hcan hraw⟩

theorem storesOne (byte : UInt8) (hfits : d.inputFits 1) :
    Adds ready (d.store byte false).endRawData := by
  obtain ⟨hle, hrm⟩ := h.inputFits (by omega) hfits
  have hone := h.store (by omega) byte false
  refine hone.endRawData fun hcan _ => ?_
  have := hrm hcan
  simp only [List.length_append]
  omega

theorem putData (byte : UInt8) : Adds ready (d.putData byte) := by
  simp only [Discipline.putData]
  cases d.termios.parmrk && !d.termios.ignpar && decide (byte = MARK) with
  | false =>
    change Adds ready (if d.inputFits 1 then (d.store byte false).endRawData else d)
    split
    · exact h.storesOne byte ‹_›
    · exact h.adds
  | true =>
    change Adds ready (if d.inputFits 2 then ((d.store byte false).store byte false).endRawData
      else d)
    split
    · rename_i hfits
      obtain ⟨hle, hrm⟩ := h.inputFits (by omega) hfits
      have hone := h.store (by omega) byte false
      have htwo := hone.store (by simp only [List.length_append, List.length_singleton]; omega)
        byte false
      refine htwo.endRawData fun hcan _ => ?_
      have := hrm hcan
      simp only [List.length_append]
      omega
    · exact h.adds

theorem putError (byte : UInt8) : Adds ready (d.putError byte) := by
  have hnone : Adds ready d.endRawData := h.toHolds.endRawData fun _ => h.free
  simp only [Discipline.putError]
  cases d.termios.parmrk with
  | false =>
    change Adds ready (if d.inputFits 1 then d.store 0 false else d).endRawData
    split
    · exact h.storesOne 0 ‹_›
    · exact hnone
  | true =>
    change Adds ready (if d.inputFits 3 then
      ((d.store MARK false).store 0 false).store byte false else d).endRawData
    split
    · rename_i hfits
      obtain ⟨hle, hrm⟩ := h.inputFits (by omega) hfits
      have hone := h.store (by omega) MARK false
      have htwo := hone.store (by simp only [List.length_append, List.length_singleton]; omega)
        0 false
      have hthree := htwo.store (by simp only [List.length_append, List.length_singleton]; omega)
        byte false
      refine hthree.endRawData fun hcan _ => ?_
      have := hrm hcan
      simp only [List.length_append]
      omega
    · exact hnone

/-- The end of a line makes it readable, as a whole and with its delimiter, if there is room. -/
theorem ends (byte : UInt8) (hrm : ready.length + line.length < TTY_RING_SIZE) :
    Edits (d.endLine byte) (ready ++ line ++ [(byte, true)]) [] := by
  have hne : d.ringRoom ≠ 0 := by
    intro h0
    have hfu := h.room
    rw [h0] at hfu
    change 0 = _ at hfu
    omega
  rw [Discipline.endLine, if_neg hne, List.append_assoc]
  exact ⟨(h.store hrm byte true).finish, fun _ => rfl, fun hnil => absurd rfl hnil⟩

theorem endLine (byte : UInt8) : Adds ready (d.endLine byte) := by
  rcases Nat.lt_or_ge (ready.length + line.length) TTY_RING_SIZE with hrm | hfu
  · refine ⟨_, [], h.ends byte hrm, ?_⟩
    rw [List.append_assoc]
    exact List.prefix_append ..
  have h0 : d.ringRoom = 0 := by
    apply eq_of_toNat_eq
    rw [h.room]
    change _ = 0
    omega
  rw [Discipline.endLine, if_pos h0]
  exact h.adds

/-! ### Erasing -/

omit h in
/-- Erasing moves the tail back, at most to the start of the line. -/
theorem eraseContinuations (d : Discipline) (fuel k : Nat) : ∃ j ≤ k,
    d.eraseContinuations fuel (d.lineEnd + BitVec.ofNat 32 k) = d.lineEnd + BitVec.ofNat 32 j := by
  induction fuel generalizing k with
  | zero => exact ⟨k, le_refl _, rfl⟩
  | succ fuel ih =>
    rw [Discipline.eraseContinuations]
    split
    · rename_i hgoes
      cases k with
      | zero => exact absurd (BitVec.add_zero _) hgoes.2.1
      | succ k =>
        obtain ⟨j, hj, heq⟩ := ih k
        refine ⟨j, by omega, ?_⟩
        rw [← heq, ofNat_add, ← add_assoc]
        congr 1
        exact add_sub_cancel ..
    · exact ⟨k, le_refl _, rfl⟩

theorem eraseLast (hd : d.eraseLast = some d') :
    ∃ k < line.length, Edits d' ready (line.take k) := by
  rw [Discipline.eraseLast] at hd
  split at hd
  · exact absurd hd (by simp)
  rename_i hne
  rw [h.tail_eq_lineEnd_iff] at hne
  cases hd
  have hpos := List.length_pos_iff.mpr hne
  have hlast : d.tail - 1 = d.lineEnd + BitVec.ofNat 32 (line.length - 1) := by
    rw [h.tail]
    obtain ⟨n, hn⟩ := Nat.exists_eq_add_of_lt hpos
    rw [hn, ofNat_add, ← add_assoc]
    exact add_sub_cancel ..
  obtain ⟨k, hk, heq⟩ := eraseContinuations d d.editingLength (line.length - 1)
  refine ⟨k, by omega, ?_⟩
  rw [hlast, heq]
  exact h.cut (by omega)

end Edits

/-- Only the line is edited, and only from its end. -/
def Erases (ready line : List Cell) (d' : Discipline) : Prop :=
  ∃ k, Edits d' ready (line.take k)

theorem Edits.erases (h : Edits d ready line) : Erases ready line d :=
  ⟨line.length, by rwa [List.take_length]⟩

theorem Erases.adds (h : Erases ready line d') : Adds ready d' :=
  let ⟨_, h⟩ := h
  h.adds

theorem Erases.trans (h : Erases ready (line.take k) d') : Erases ready line d' := by
  obtain ⟨j, h⟩ := h
  rw [List.take_take] at h
  exact ⟨_, h⟩

namespace Edits

section
variable (h : Edits d ready line)
include h

theorem erase : Erases ready line d.erase := by
  rw [Discipline.erase]
  cases hd : d.eraseLast with
  | none => exact h.erases
  | some d' =>
    obtain ⟨k, -, h'⟩ := h.eraseLast hd
    exact ⟨k, h'⟩

theorem eraseWhile (kind : UInt8 → Bool) (fuel : Nat) :
    Erases ready line (eraseWhile kind fuel d) := by
  induction fuel generalizing d line with
  | zero => exact h.erases
  | succ fuel ih =>
    rw [eraseWhile]
    split
    · obtain ⟨k, h'⟩ := h.erase
      exact (ih h').trans
    · exact h.erases

theorem eraseWord : Erases ready line d.eraseWord := by
  obtain ⟨k, h'⟩ := h.eraseWhile isblank d.editingLength
  exact (h'.eraseWhile _ _).trans

theorem eraseAll (fuel : Nat) :
    Erases ready line (eraseAll fuel d) := by
  induction fuel generalizing d line with
  | zero => exact h.erases
  | succ fuel ih =>
    rw [eraseAll]
    cases hd : d.eraseLast with
    | none => exact h.erases
    | some d' =>
      obtain ⟨k, -, h'⟩ := h.eraseLast hd
      exact (ih h').trans

theorem killLine : Erases ready line d.killLine := by
  rw [Discipline.killLine]
  split
  · exact h.eraseAll _
  refine ⟨0, ?_⟩
  have hcut := h.cut (Nat.zero_le _)
  rwa [BitVec.add_zero] at hcut

/-! ### Receiving -/

theorem receiveCanonical (byte : UInt8) :
    Adds ready (d.receiveCanonical byte) := by
  simp only [Discipline.receiveCanonical]
  split
  · exact (h.of_eq { d with escaped := false } rfl rfl rfl rfl rfl).putData _
  split
  · exact h.erase.adds
  split
  · exact h.killLine.adds
  split
  · exact h.eraseWord.adds
  split
  · exact h.adds
  split
  · exact (h.of_eq { d with literalNext := true } rfl rfl rfl rfl rfl).adds
  split
  · exact h.endLine 0
  split
  · exact h.endLine byte
  split
  · exact (h.of_eq { d with escaped := true } rfl rfl rfl rfl rfl).adds
  · exact h.putData byte

theorem signalCharacter (hd : d.signalCharacter byte = some d') :
    Adds ready d' ∨ d.termios.isig ∧ !d.termios.noflsh ∧ d' = d.flushInput := by
  rw [Discipline.signalCharacter] at hd
  split at hd
  · exact absurd hd (by simp)
  rename_i hsig
  obtain ⟨sig, -, rfl⟩ := Option.map_eq_some_iff.mp hd
  split
  · rename_i hflu
    exact .inr ⟨by simpa using hsig, hflu.2, rfl⟩
  · exact .inl h.adds

end

end Edits

/-- The calls that may discard what has been typed: a flush, and a break or a signal character if
the settings say so. -/
def Discards (d : Discipline) : TtyOp → Prop
  | .receive _ error => error = .brk ∧ d.termios.brkint ∨ d.termios.isig ∧ !d.termios.noflsh
  | .read _ => False
  | .flushInput => True
  | .setTermios _ => False

namespace Edits

section
variable (h : Edits d ready line)
include h

theorem receiveByte (byte : UInt8) : Adds ready (d.receiveByte byte) ∨
    d.termios.isig ∧ !d.termios.noflsh ∧ d.receiveByte byte = d.flushInput := by
  simp only [Discipline.receiveByte]
  generalize (if d.termios.istrip = true then byte &&& 0x7F else byte) = byte
  split
  · exact .inl ((h.of_eq { d with literalNext := false } rfl rfl rfl rfl rfl).putData _)
  split
  · exact .inl h.adds
  split
  · exact h.signalCharacter ‹_›
  left
  split
  · exact h.adds
  split
  · exact h.receiveCanonical _
  · exact h.putData _

theorem receive (byte : UInt8) (error : LineError) :
    Adds ready (d.receive byte error) ∨
      Discards d (.receive byte error) ∧ d.receive byte error = d.flushInput := by
  have hbt : Adds ready (d.receiveByte byte) ∨
      Discards d (.receive byte error) ∧ d.receiveByte byte = d.flushInput := by
    rcases h.receiveByte byte with had | ⟨hsig, hflu, heq⟩
    · exact .inl had
    · exact .inr ⟨.inr ⟨hsig, hflu⟩, heq⟩
  have hbad : Adds ready (d.receiveBadByte byte) ∨
      Discards d (.receive byte error) ∧ d.receiveBadByte byte = d.flushInput := by
    rw [receiveBadByte]
    split
    · exact hbt
    split
    · exact .inl (h.putError byte)
    · exact .inl h.adds
  cases error with
  | none => exact hbt
  | brk =>
    rw [Discipline.receive, receiveBreak]
    split
    · exact .inl h.adds
    split
    · rename_i hbrk
      exact .inr ⟨.inl ⟨rfl, hbrk⟩, rfl⟩
    · exact .inl (h.putError 0)
  | parity => exact hbad
  | framing => exact hbad
  | overrun => exact hbad

/-! ### Reading and settings -/

theorem readLoop (left : Nat) (copied : List UInt8) :
    ∃ k ≤ left, Edits (readLoop left copied d).2.2 (ready.drop k) line := by
  induction left generalizing d ready copied with
  | zero => exact ⟨0, le_refl _, h⟩
  | succ left ih =>
    rw [readLoop]
    split
    · exact ⟨0, Nat.zero_le _, h⟩
    rename_i hne
    rw [h.head_eq_lineEnd_iff] at hne
    obtain ⟨c, rest, rfl⟩ := List.exists_cons_of_ne_nil hne
    have htkn : Edits { d with head := d.head + 1 } rest line := by
      refine ⟨h.take.2, h.raw, fun hln => ?_⟩
      have := h.free hln
      rw [List.length_cons] at this
      omega
    dsimp only
    split
    · exact ⟨1, by omega, htkn⟩
    split
    · exact ⟨1, by omega, htkn⟩
    · obtain ⟨k, hle, hk⟩ := ih htkn (copied ++ [d.ringAt d.head])
      exact ⟨k + 1, by omega, hk⟩

theorem setTermios (termios : Termios) :
    Adds ready (d.setTermios termios) := by
  rw [Discipline.setTermios]
  split
  · refine ⟨ready ++ line, [], ⟨?_, fun _ => rfl, fun hne => absurd rfl hne⟩, List.prefix_append ..⟩
    exact h.toHolds.finish.of_eq rfl rfl rfl rfl
  · rename_i hsty
    refine ⟨ready, line, ⟨h.toHolds.of_eq rfl rfl rfl rfl, ?_, h.free⟩, List.prefix_refl _⟩
    intro hraw
    apply h.raw
    simpa [show termios.icanon = false from hraw] using hsty

end

end Edits

/-! ## Every run -/

/-- What a call does to what can be read. -/
def Keeps (d : Discipline) : TtyOp → Prop
  | .read size =>
    ∃ k ≤ size, (d.read size).2.2.ready = d.ready.drop k ∧ (d.read size).2.2.editing = d.editing
  | op => d.ready <+: (d.apply op).ready ∨ Discards d op ∧ d.apply op = d.flushInput

/-- What the ring holds meets the invariant. -/
def Ordered (d : Discipline) : Prop := Edits d d.ready d.editing

theorem Edits.ordered (h : Edits d ready line) : Ordered d := by
  rw [Ordered, h.ready_eq, h.editing_eq]
  exact h

theorem Adds.ordered (h : Adds ready d') : Ordered d' ∧ ready <+: d'.ready := by
  obtain ⟨ready', line', h', hpre⟩ := h
  rw [h'.ready_eq]
  exact ⟨h'.ordered, hpre⟩

theorem Ordered.init (data : Nat → UInt8) (termios : Termios) :
    Ordered (.init data termios) :=
  Edits.ordered ⟨Holds.empty _ rfl rfl, fun _ => rfl, fun hne => absurd rfl hne⟩

theorem Ordered.step (h : Ordered d) (op : TtyOp) : Ordered (d.apply op) ∧ Keeps d op := by
  cases op with
  | receive byte error =>
    rcases Edits.receive h byte error with had | ⟨hdiscards, heq⟩
    · exact ⟨had.ordered.1, .inl had.ordered.2⟩
    refine ⟨?_, .inr ⟨hdiscards, heq⟩⟩
    rw [apply, heq]
    exact (Edits.flushInput d).ordered
  | read size =>
    obtain ⟨k, hk, hrd⟩ := Edits.readLoop h size []
    exact ⟨hrd.ordered, k, hk, hrd.ready_eq, hrd.editing_eq⟩
  | flushInput => exact ⟨(Edits.flushInput d).ordered, .inr ⟨trivial, rfl⟩⟩
  | setTermios termios =>
    have had := (Edits.setTermios h termios).ordered
    exact ⟨had.1, .inl had.2⟩

theorem Ordered.run (data : Nat → UInt8) (termios : Termios) (ops : List TtyOp) :
    Ordered (ops.foldl apply (.init data termios)) :=
  List.foldlRecOn ops _ (Ordered.init data termios) fun _ h op _ => (h.step op).1

/-- The ring of positions that wrap: what can be read lies before the line being edited, which is
empty if the input is not canonical and else, once started, leaves room for the byte that ends it;
that byte makes just that line readable. No call changes what can be read, but for taking it from
the front and for discarding all input. -/
theorem input_ring_ordered (data : Nat → UInt8) (termios : Termios) (ops : List TtyOp) :
    let d := ops.foldl apply (.init data termios)
    ((d.lineEnd - d.head).toNat ≤ (d.tail - d.head).toNat ∧
      (d.tail - d.head).toNat ≤ TTY_RING_SIZE) ∧
    (¬d.termios.icanon → d.tail = d.lineEnd) ∧
    (d.termios.icanon → d.tail ≠ d.lineEnd → (d.tail - d.head).toNat < TTY_RING_SIZE ∧
      ∀ byte, (d.endLine byte).ready = d.ready ++ d.editing ++ [(byte, true)] ∧
        (d.endLine byte).editing = []) ∧
    ∀ op, Keeps d op := by
  have h := Ordered.run data termios ops
  generalize ops.foldl apply (.init data termios) = d at h
  have hline : d.tail ≠ d.lineEnd → d.editing ≠ [] := fun hne hnil =>
    hne (h.tail_eq_lineEnd_iff.mpr hnil)
  refine ⟨?_, ?_, ?_, fun op => (h.step op).2⟩
  · rw [h.lineEnd_sub, h.tail_sub]
    exact ⟨Nat.le_add_right .., h.le⟩
  · intro hraw
    exact h.tail_eq_lineEnd_iff.mpr (h.raw (by simpa using hraw))
  intro _ hne
  rw [h.tail_sub]
  refine ⟨h.free (hline hne), fun byte => ?_⟩
  have hends := h.ends byte (h.free (hline hne))
  exact ⟨hends.ready_eq, hends.editing_eq⟩

end Vex.Dev.Tty
