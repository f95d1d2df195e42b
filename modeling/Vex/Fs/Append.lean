import Mathlib.Tactic.Common
import Vex.Lib.Threads

/-! `file_write` on files that were opened with `O_APPEND` (`file.c`), on any number of threads and
any number of `file_t` of one regular vnode. The end of the file is looked up, stored as the file's
offset and read back before the file system writes, each in a step of its own; the file system's
write is one step under its lock. -/

namespace Vex.Fs.Append

open Lib

abbrev Bytes := List UInt8

/-- `ops->write` of a regular file: a gap before the offset is filled with zeroes. -/
def writeAt (content : Bytes) (offset : Nat) (data : Bytes) : Bytes :=
  if data = [] then content
  else content.take offset ++ List.replicate (offset - content.length) 0 ++ data ++
    content.drop (offset + data.length)

/-- The vnode's content, and the offset of every `file_t` that refers to it. -/
structure Node (F : Type) where
  content : Bytes
  offset : F → Nat

/-- Where a thread is in `file_write`. -/
inductive Pc (F : Type)
  | idle
  | start (file : F) (data : Bytes)
  /-- `vnode_stat` has answered. -/
  | statted (file : F) (data : Bytes) (size : Nat)
  /-- `file->offset` is set, and `vnode_remove_privs` runs. -/
  | positioned (file : F) (data : Bytes)
  /-- `vnode_write` is called, with the offset read. -/
  | writing (file : F) (data : Bytes) (offset : Nat)
  | written (file : F) (result : Nat)
  /-- The sum for `file->offset` is formed. -/
  | advancing (file : F) (offset : Nat)
  deriving DecidableEq

inductive Act (F : Type)
  | fileWrite (file : F) (data : Bytes)
  | stat
  | setOffset
  | getOffset
  /-- The file system writes `chunk`, the data or a first part of it. -/
  | write (chunk : Bytes)
  | addResult
  | storeOffset
  deriving DecidableEq

variable {F T : Type}

def step [DecidableEq F] (n : Node F) : Pc F → Act F → Option (Node F × Pc F)
  | .idle, .fileWrite file data => some (n, .start file data)
  | .start file data, .stat => some (n, .statted file data n.content.length)
  | .statted file data size, .setOffset =>
    some ({ n with offset := Function.update n.offset file size }, .positioned file data)
  | .positioned file data, .getOffset => some (n, .writing file data (n.offset file))
  | .writing file data offset, .write chunk =>
    if chunk <+: data ∧ (data ≠ [] → chunk ≠ []) then
      some ({ n with content := writeAt n.content offset chunk }, .written file chunk.length)
    else none
  | .written file result, .addResult =>
    some (n, if result > 0 then .advancing file (n.offset file + result) else .idle)
  | .advancing file offset, .storeOffset =>
    some ({ n with offset := Function.update n.offset file offset }, .idle)
  | _, _ => none

abbrev World (T F : Type) := Threads T (Node F) (Pc F)

def World.step [DecidableEq T] [DecidableEq F] : World T F → T × Act F → Option (World T F) :=
  Threads.step fun _ => Append.step

/-- The end of the file was looked up, and the write is still to come. -/
def Pc.looked : Pc F → Bool
  | statted .. | positioned .. | writing .. => true
  | _ => false

/-- The offset of `file` is set and still to be read back. -/
def Pc.relies [DecidableEq F] (file : F) : Pc F → Bool
  | positioned other _ => other = file
  | _ => false

/-- The file whose offset the thread is about to move past what it has written. -/
def Pc.advances : Pc F → Option F
  | advancing file _ => some file
  | _ => none

/-- A step keeps off the other calls: nothing is written while another call has looked up the end
of the file and not written yet, and no offset is moved on which another call relies. -/
def KeepsOff [DecidableEq F] (w : World T F) : T × Act F → Prop
  | (t, .write chunk) => chunk ≠ [] → ∀ u, u ≠ t → (w.pc u).looked = false
  | (t, .storeOffset) => ∀ file ∈ (w.pc t).advances, ∀ u, u ≠ t → (w.pc u).relies file = false
  | _ => True

/-- The chunks that were written, in the order the file system wrote them. -/
def chunks (acts : List (T × Act F)) : List Bytes :=
  acts.filterMap fun
    | (_, .write chunk) => some chunk
    | _ => none

/-- What a call relies on until it has written. -/
def Pc.AtEnd (n : Node F) : Pc F → Prop
  | statted _ _ size => size = n.content.length
  | positioned file _ => n.offset file = n.content.length
  | writing _ _ offset => offset = n.content.length
  | _ => True

def Inv (content : Bytes) (w : World T F) : Prop :=
  w.shared.content = content ∧ ∀ t, (w.pc t).AtEnd w.shared

theorem writeAt_length (content data : Bytes) :
    writeAt content content.length data = content ++ data := by
  unfold writeAt
  split
  case isTrue h => simp [h]
  case isFalse => simp

/-- What a step makes of the content, if appends append. -/
def appended (content : Bytes) : T × Act F → Bytes
  | (_, .write chunk) => content ++ chunk
  | _ => content

theorem foldl_appended (content : Bytes) (acts : List (T × Act F)) :
    acts.foldl appended content = content ++ (chunks acts).flatten := by
  induction acts generalizing content with
  | nil => simp [chunks]
  | cons a acts ih =>
    rw [List.foldl_cons, ih]
    obtain ⟨t, act⟩ := a
    cases act <;> simp [appended, chunks]

theorem Pc.AtEnd.of_not_looked {p : Pc F} (h : p.looked = false) : p.AtEnd n := by
  cases p with
  | statted | positioned | writing => cases h
  | idle | start | written | advancing => trivial

/-- What a call relies on stays, if the content does and its offset is not moved elsewhere. -/
theorem Pc.AtEnd.of_content [DecidableEq F] {p : Pc F} (h : p.AtEnd n)
    (hcon : n'.content = n.content)
    (hoff : ∀ file, p.relies file → n'.offset file = n.offset file ∨
      n'.offset file = n'.content.length) : p.AtEnd n' := by
  cases p with
  | positioned file data =>
    rcases hoff file (by simp [relies]) with hsame | hend
    · exact hsame.trans (h.trans (congrArg _ hcon.symm))
    · exact hend
  | statted | writing => exact h.trans (congrArg _ hcon.symm)
  | idle | start | written | advancing => trivial

variable [DecidableEq T] {w w' : World T F} {content : Bytes}

theorem Inv.move (h : ∀ u, u ≠ t → (w.pc u).AtEnd n) (hp : p.AtEnd n)
    (hcon : n.content = content) : Inv content (w.move t n p) :=
  ⟨hcon, fun u => Threads.move_cases u hp (h u)⟩

variable [DecidableEq F]

theorem Inv.step (h : Inv content w) (hok : KeepsOff w a) (hst : w.step a = some w') :
    Inv (appended content a) w' := by
  obtain ⟨t, act⟩ := a
  obtain ⟨n, p, hs, rfl⟩ := Threads.step_cases hst
  obtain ⟨rfl, hen⟩ := h
  have hend := hen t
  simp only at hs
  generalize hpc : w.pc t = pc at hs hend
  unfold Append.step at hs
  split at hs
  case h_1 =>
    cases hs
    exact Inv.move (fun u _ => hen u) trivial rfl
  case h_2 =>
    cases hs
    exact Inv.move (fun u _ => hen u) rfl rfl
  case h_4 =>
    cases hs
    exact Inv.move (fun u _ => hen u) hend rfl
  case h_3 file data size =>
    cases hs
    refine Inv.move (fun u _ => (hen u).of_content rfl fun other _ => ?_) ?_ rfl
    · by_cases hoth : other = file
      · subst hoth
        exact .inr (by simpa [Pc.AtEnd] using hend)
      · exact .inl (by simp [hoth])
    · simpa [Pc.AtEnd] using hend
  case h_5 file data offset chunk =>
    obtain ⟨-, ⟨⟩⟩ := of_guard hs
    have hcon : writeAt w.shared.content offset chunk = w.shared.content ++ chunk := by
      rw [show offset = w.shared.content.length from hend, writeAt_length]
    refine Inv.move (fun u hu => ?_) trivial hcon
    by_cases hchk : chunk = []
    · exact (hen u).of_content (by simp [hchk, writeAt]) fun _ _ => .inl rfl
    · exact .of_not_looked (hok hchk u hu)
  case h_6 file result =>
    cases hs
    exact Inv.move (fun u _ => hen u) (by split <;> trivial) rfl
  case h_7 file offset =>
    cases hs
    refine Inv.move (fun u hu => (hen u).of_content rfl fun other hoth => ?_) trivial rfl
    have hne : other ≠ file := by
      rintro rfl
      simp [hok other (by simp [hpc, Pc.advances]) u hu] at hoth
    exact .inl (by simp [hne])
  case h_8 => cases hs

/-- **Appends never overwrite each other**: what was written follows the initial content, chunk
after chunk in the order of the writes, if every step keeps off the other calls. -/
theorem appends_never_overlap {acts : List (T × Act F)} (hidle : ∀ t, w.pc t = .idle)
    (hrun : Run (Under KeepsOff (Advances World.step)) w acts w') :
    w'.shared.content = w.shared.content ++ (chunks acts).flatten := by
  have h0 : Inv w.shared.content w := ⟨rfl, fun t => by rw [hidle t]; trivial⟩
  have h := hrun.history (fun h hs => h.step hs.1 hs.2) h0
  rw [foldl_appended] at h
  exact h.1

/-- Two files of one vnode that holds one byte. -/
def twoFiles : World (Fin 2) (Fin 2) where
  shared := { content := [65], offset := fun _ => 0 }
  pc := fun _ => .idle

/-- The stretch of `file_write` up to the write, and from it on. -/
def lookUp (t : Fin 2) (data : Bytes) : List (Fin 2 × Act (Fin 2)) :=
  [(t, .fileWrite t data), (t, .stat), (t, .setOffset), (t, .getOffset)]

def writeOut (t : Fin 2) (data : Bytes) : List (Fin 2 × Act (Fin 2)) :=
  [(t, .write data), (t, .addResult), (t, .storeOffset)]

def oneAfterOther : List (Fin 2 × Act (Fin 2)) :=
  lookUp 0 [1, 2] ++ writeOut 0 [1, 2] ++ (lookUp 1 [3] ++ writeOut 1 [3])

def bothLookFirst : List (Fin 2 × Act (Fin 2)) :=
  lookUp 0 [1, 2] ++ lookUp 1 [3] ++ (writeOut 0 [1, 2] ++ writeOut 1 [3])

instance (w : World (Fin 2) (Fin 2)) : (a : Fin 2 × Act (Fin 2)) → Decidable (KeepsOff w a)
  | (_, .write _) => inferInstanceAs (Decidable (_ → _))
  | (t, .storeOffset) =>
    inferInstanceAs (Decidable (∀ file ∈ (w.pc t).advances, ∀ u, u ≠ t → _))
  | (_, .fileWrite _ _) | (_, .stat) | (_, .setOffset) | (_, .getOffset) | (_, .addResult) =>
    isTrue trivial

theorem appends_never_overlap_oneAfterOther :
    ∃ w', Run (Under KeepsOff (Advances World.step)) twoFiles oneAfterOther w' ∧
      w'.shared.content = twoFiles.shared.content ++ (chunks oneAfterOther).flatten := by
  have hrun : Run (Under KeepsOff (Advances World.step)) twoFiles oneAfterOther _ :=
    Run.of_foldlM_under rfl
  exact ⟨_, hrun, appends_never_overlap (fun _ => rfl) hrun⟩

/-- The second append lands on the first one. -/
theorem append_overwrites_append :
    ∃ w', Run (Advances World.step) twoFiles bothLookFirst w' ∧
      (∀ t, w'.pc t = .idle) ∧ w'.shared.content = [65, 3, 2] ∧
      ∀ order : List Bytes, order.Perm (chunks bothLookFirst) →
        w'.shared.content ≠ twoFiles.shared.content ++ order.flatten := by
  refine Run.exists_and₂ ⟨_, Run.of_foldlM rfl, by decide, rfl⟩ ?_
  intro w' _ _ hcontent order horder heq
  -- three bytes were written, two are there
  have hlength := congrArg List.length (hcontent.symm.trans heq)
  rw [List.length_append, horder.flatten.length_eq] at hlength
  exact absurd hlength (by decide)

end Vex.Fs.Append
