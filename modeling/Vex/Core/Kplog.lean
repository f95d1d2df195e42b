import Mathlib.Algebra.GroupWithZero.Nat
import Vex.Lib.Run

/-! Reads of one file of `/dev/kplog` (`kplog.c`), while other harts append to the log. Every access
to the log is one step. Of a record the number counts and the size of its text, which is `text` of
the number. -/

namespace Vex.Core.Kplog

open Lib

abbrev FEED_ALIGN : Nat := 8
abbrev FEED_LOST_SIZE : Nat := 32
abbrev RECORD_HEAD_SIZE : Nat := 32

def recordFootprint (textSize : Nat) : Nat :=
  (RECORD_HEAD_SIZE + textSize + FEED_ALIGN - 1) / FEED_ALIGN * FEED_ALIGN

/-- What a read puts into the buffer. -/
inductive Item
  | record (seq : Nat)
  | lost (count : Nat)
  deriving DecidableEq, Repr

/-- How many records an item stands for. -/
def Item.count : Item → Nat
  | record _ => 1
  | lost count => count

inductive Pc
  | idle
  /-- At the head of the loop of `read_locked`, with the room left in the buffer. -/
  | reading (room : Nat)
  /-- The oldest record is `entry`, past the cursor, and `kprintf_seek_first` is next. -/
  | seeking (room entry : Nat)
  deriving DecidableEq, Repr

structure World where
  firstSeq : Nat
  nextSeq : Nat
  /-- The number in the cursor of the file. -/
  seq : Nat
  lost : Nat
  pc : Pc
  /-- All that was returned since the file was opened. -/
  items : List Item
  deriving DecidableEq, Repr

inductive Act
  /-- Another hart appends a record, for which that many of the oldest are dropped. -/
  | append (dropped : Nat)
  /-- `read_locked` with a buffer of some size. -/
  | read (size : Nat)
  | next
  deriving DecidableEq, Repr

namespace World

/-- The file as `kplog_open_file` leaves it. -/
structure Opened (w : World) : Prop where
  pc : w.pc = .idle
  lost : w.lost = 0
  items : w.items = []
  seq : w.seq = w.firstSeq

/-- A turn of the loop of `read_locked`, up to `kprintf_seek_first`. -/
def turn (text : Nat → Nat) (w : World) (room : Nat) : World :=
  if w.lost ≠ 0 then
    if room < FEED_LOST_SIZE then { w with pc := .idle }
    else { w with
      lost := 0
      items := w.items ++ [.lost w.lost]
      pc := .reading (room - FEED_LOST_SIZE) }
  else
    -- `kprintf_read` of a copy of the cursor
    let entry := max w.seq w.firstSeq
    if ¬entry < w.nextSeq then { w with pc := .idle }
    else if entry ≠ w.seq then
      { w with lost := w.lost + (entry - w.seq), pc := .seeking room entry }
    else if room < recordFootprint (text entry) then { w with pc := .idle }
    else { w with
      seq := entry + 1
      items := w.items ++ [.record entry]
      pc := .reading (room - recordFootprint (text entry)) }

def step (text : Nat → Nat) (w : World) : Act → Option World
  | .append dropped =>
    if w.firstSeq + dropped ≤ w.nextSeq then
      some { w with firstSeq := w.firstSeq + dropped, nextSeq := w.nextSeq + 1 }
    else none
  | .read size => if w.pc = .idle then some { w with pc := .reading size } else none
  | .next => match w.pc with
    | .idle => none
    | .reading room => some (w.turn text room)
    | .seeking room _ => some { w with seq := w.firstSeq, pc := .reading room }

/-- The cursor goes to the record that was found, which has not been dropped meanwhile. -/
def Steady (w : World) (a : Act) : Prop :=
  match w.pc with
  | .seeking _ entry => a = .next → w.firstSeq = entry
  | _ => True

instance (w : World) (a : Act) : Decidable (w.Steady a) := by
  unfold Steady
  split <;> infer_instance

end World

/-- How many records some items stand for. -/
def covered (items : List Item) : Nat := (items.map Item.count).sum

/-- Every record has the number that follows from what was returned before it. -/
def Accounted (start : Nat) (items : List Item) : Prop :=
  ∀ k seq, items[k]? = some (.record seq) → seq = start + covered (items.take k)

variable {start : Nat} {items : List Item} {i : Item}

theorem covered_concat : covered (items ++ [i]) = covered items + i.count := by simp [covered]

theorem covered_take_lt (hj : items[j]? = some (.record seq)) (hjk : j < k) :
    covered (items.take j) < covered (items.take k) := by
  obtain ⟨n, rfl⟩ := Nat.exists_eq_add_of_lt hjk
  have hsucc : covered (items.take (j + 1)) = covered (items.take j) + 1 := by
    rw [List.take_add_one, hj]
    exact covered_concat
  have hle : covered (items.take (j + 1)) ≤ covered (items.take (j + 1 + n)) := by
    simp [covered, List.take_add]
  rw [Nat.add_right_comm]
  omega

theorem Accounted.concat (h : Accounted start items)
    (hi : ∀ seq, i = .record seq → seq = start + covered items) :
    Accounted start (items ++ [i]) := by
  intro k seq hk
  rcases Nat.lt_trichotomy k items.length with hlt | rfl | hgt
  · rw [List.getElem?_append_left hlt] at hk
    rw [List.take_append_of_le_length (Nat.le_of_lt hlt)]
    exact h k seq hk
  · rw [List.getElem?_concat_length] at hk
    rw [List.take_left]
    exact hi seq (Option.some.inj hk)
  · rw [List.getElem?_eq_none (by simpa using Nat.succ_le_of_lt hgt)] at hk
    cases hk

namespace World

variable {text : Nat → Nat} {w w' : World} {a : Act}

/-- The number of the next record to return, with the records lost before it still to report. -/
def due (w : World) : Nat :=
  match w.pc with
  | .seeking _ entry => entry
  | _ => w.seq

structure Inv (start : Nat) (w : World) : Prop where
  accounted : Accounted start w.items
  due : w.due = start + covered w.items + w.lost

theorem Inv.turn (h : w.Inv start) (hpc : w.pc = .reading room) : (w.turn text room).Inv start := by
  obtain ⟨hacc, hdue⟩ := h
  simp only [World.due, hpc] at hdue
  unfold World.turn
  split
  · split
    · exact ⟨hacc, hdue⟩
    refine ⟨hacc.concat nofun, ?_⟩
    simp only [World.due, covered_concat, Item.count]
    omega
  · dsimp only
    split
    · exact ⟨hacc, hdue⟩
    split
    · refine ⟨hacc, ?_⟩
      simp only [World.due]
      omega
    split
    · exact ⟨hacc, hdue⟩
    refine ⟨hacc.concat fun seq hseq => ?_, ?_⟩
    · cases hseq
      omega
    · simp only [World.due, covered_concat, Item.count]
      omega

theorem Inv.step (h : w.Inv start) (hstd : w.Steady a) (hs : w.step text a = some w') :
    w'.Inv start := by
  cases a with
  | append dropped =>
    obtain ⟨-, rfl⟩ := of_guard hs
    exact ⟨h.accounted, h.due⟩
  | read size =>
    obtain ⟨hpc, rfl⟩ := of_guard hs
    exact ⟨h.accounted, by simpa [World.due, hpc] using h.due⟩
  | next =>
    simp only [World.step] at hs
    split at hs
    case h_1 => cases hs
    case h_2 room hpc => exact Option.some.inj hs ▸ h.turn hpc
    case h_3 room entry hpc =>
      cases hs
      simp only [Steady, hpc, forall_const] at hstd
      refine ⟨h.accounted, hstd.trans ?_⟩
      simpa [World.due, hpc] using h.due

/-- **A log reader accounts for every record**, as long as nothing is dropped between the look at
the oldest record and the move of the cursor: the number of each record returned is that of the
cursor at first, with one for each record and the count of each loss returned before it, and no
record is returned twice. -/
theorem reader_accounts_for_records {w0 : World} {acts : List Act} (hopen : w0.Opened)
    (hrun : Run (Under Steady (Advances (step text))) w0 acts w) :
    Accounted w0.seq w.items ∧ ∀ j k : Nat, ∀ seq,
      w.items[j]? = some (.record seq) → w.items[k]? = some (.record seq) → j = k := by
  have h0 : w0.Inv w0.seq :=
    ⟨by simp [Accounted, hopen.items],
      by simp [World.due, covered, hopen.pc, hopen.items, hopen.lost]⟩
  have h := (hrun.invariant (fun h hs => h.step hs.1 hs.2) h0).accounted
  refine ⟨h, fun j k seq hj hk => ?_⟩
  have hjk := (h j seq hj).symm.trans (h k seq hk)
  rcases Nat.lt_trichotomy j k with hlt | heq | hgt
  · have := covered_take_lt hj hlt
    omega
  · exact heq
  · have := covered_take_lt hk hgt
    omega

/-- A file opened on a full ring. -/
def opened : World := ⟨17952, 20000, 17952, 0, .idle, []⟩

/-- A record is dropped before it is read. -/
def dropFirst : List Act := [.append 1, .read 80, .next, .next, .next, .next, .next]

theorem reader_accounts_for_records_dropFirst :
    opened.Opened ∧ ∃ w, Run (Under Steady (Advances (step fun _ => 5))) opened dropFirst w ∧
      w.items = [.lost 1, .record 17953] ∧
      Accounted 17952 w.items ∧ ∀ j k : Nat, ∀ seq,
      w.items[j]? = some (.record seq) → w.items[k]? = some (.record seq) → j = k := by
  have hopen : opened.Opened := ⟨rfl, rfl, rfl, rfl⟩
  refine ⟨hopen, Run.exists_and ⟨_, Run.of_foldlM_under rfl, rfl⟩ fun w hrun _ => ?_⟩
  exact reader_accounts_for_records hopen hrun

/-- Another record is dropped when the oldest one has been looked at. -/
def dropAgain : List Act := [.append 1, .read 80, .next, .append 1, .next, .next, .next]

/-- Two records are lost, and one is reported. -/
theorem lost_record_unreported : opened.Opened ∧
    ∃ w, Run (Advances (step fun _ => 5)) opened dropAgain w ∧ w.items = [.lost 1, .record 17954] ∧
      ¬Accounted opened.seq w.items :=
  ⟨⟨rfl, rfl, rfl, rfl⟩, _, Run.of_foldlM rfl, rfl, fun h => absurd (h 1 17954 rfl) (by decide)⟩

end World

end Vex.Core.Kplog
