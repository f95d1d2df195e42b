import Vex.Proc.SysFile

/-! When a failed `read` or `write` has moved nothing. A loop is followed turn by turn with what it
has moved so far; a turn goes on from there, or ends the call, or breaks what the call may move. -/

namespace Vex.Proc.SysFile

open UserMem

open Fs.Append (Bytes writeAt)

attribute [local simp] File.put Node.put File.toEnd Node.drain

/-! ## Reads -/

section Reads

variable {f : File} {m : UserMem}

theorem store_append (m : UserMem) (addr : Nat) (data rest : Bytes) :
    (m.store addr data).store (addr + data.length) rest = m.store addr (data ++ rest) := by
  simp only [store, mk.injEq, and_true]
  funext a
  rcases Nat.lt_or_ge a (addr + data.length) with hlt | hge
  · by_cases ha : addr ≤ a
    · have hin : a - addr < data.length := by omega
      simp [Nat.not_le.mpr hlt, List.getElem?_append_left hin]
    · simp [ha, Nat.not_le.mpr hlt]
  · have hout : data.length ≤ a - addr := by omega
    have hsub : a - (addr + data.length) = a - addr - data.length := by omega
    have ha : addr ≤ a := by omega
    simp [ha, hge, List.getElem?_append_right hout, hsub, List.getElem?_eq_none hout]

theorem File.get_add (f : File) (a b : Nat) :
    f.node.get f.offset (a + b) =
      f.node.get f.offset a ++ (f.advance a).node.get (f.advance a).offset b := by
  by_cases hstr : f.node.kind = .stream <;>
    simp [Node.get, advance, hstr, List.take_add]

theorem File.get_min (f : File) (a b : Nat) :
    f.node.get f.offset (f.node.get f.offset (min a b)).length = f.node.get f.offset (min a b) := by
  by_cases hstr : f.node.kind = .stream <;> simp [Node.get, hstr]

theorem File.get_length_le (f : File) (size : Nat) : (f.node.get f.offset size).length ≤ size := by
  unfold Node.get
  split <;> exact List.length_take_le ..

theorem File.advance_add (f : File) (a b : Nat) : (f.advance a).advance b = f.advance (a + b) := by
  by_cases hstr : f.node.kind = .stream <;>
    simp [advance, hstr, Nat.add_assoc]

/-- The read has moved `total` bytes so far. -/
structure ReadAt (addr size : Nat) (f : File) (m : UserMem) (total : Nat) (f' : File)
    (m' : UserMem) : Prop where
  le : total ≤ size
  length : (f.node.get f.offset total).length = total
  file : f' = f.advance total
  mem : m' = m.store addr (f.node.get f.offset total)

variable {addr size total : Nat} {f' : File} {m' : UserMem}

theorem ReadAt.step (h : ReadAt addr size f m total f' m') (a b : Nat) (hb : total + b ≤ size) :
    ReadAt addr size f m (total + (f'.node.get f'.offset (min a b)).length)
      (f'.advance (f'.node.get f'.offset (min a b)).length)
      (m'.store (addr + total) (f'.node.get f'.offset (min a b))) := by
  obtain ⟨hle, hlen, rfl, rfl⟩ := h
  have hmost := (f.advance total).get_length_le (min a b)
  have hget := f.get_add total ((f.advance total).node.get (f.advance total).offset
    (min a b)).length
  rw [File.get_min] at hget
  refine ⟨by omega, ?_, f.advance_add .., ?_⟩
  · rw [hget, List.length_append, hlen]
  · rw [hget, ← store_append, hlen]

theorem ReadAt.kept (h : ReadAt addr size f m total f' m') :
    ReadKept addr size f m (.ok total, f', m') :=
  ⟨h.le, h.length, h.file, h.mem⟩

end Reads

/-! ## Writes -/

section Writes

variable {f : File} {m : UserMem} {addr size : Nat}

variable {data : Bytes}

theorem writeAt_append (content : Bytes) (offset : Nat) (hdt : data ≠ []) (rest : Bytes) :
    writeAt (writeAt content offset data) (offset + data.length) rest =
      writeAt content offset (data ++ rest) := by
  have hlen : (content.take offset ++ List.replicate (offset - content.length) 0).length =
      offset := by
    simp
    omega
  by_cases hrs : rest = []
  · simp [writeAt, hrs]
  simp only [writeAt, hdt, hrs, List.append_eq_nil_iff, if_false]
  generalize content.take offset ++ List.replicate (offset - content.length) 0 = front at hlen
  subst hlen
  have htk : List.take (front.length + data.length)
      (front ++ data ++ content.drop (front.length + data.length)) = front ++ data :=
    List.take_left' (List.length_append ..)
  have hdrop : List.drop (front.length + data.length + rest.length)
      (front ++ data ++ content.drop (front.length + data.length)) =
        content.drop (front.length + (data ++ rest).length) := by
    simp [Nat.add_assoc]
  rw [htk, hdrop]
  simp

theorem load_add (m : UserMem) (addr a b : Nat) :
    m.load addr (a + b) = m.load addr a ++ m.load (addr + a) b := by
  simp [load, List.range_add, Nat.add_assoc]

@[simp] theorem load_length (m : UserMem) (addr n : Nat) : (m.load addr n).length = n := by
  simp [load]

/-- The file after a turn has or has not set its position. -/
def File.placed (f : File) (t : WriteTurn) : File := if f.positions t then f.toEnd else f

variable {t : WriteTurn}

theorem File.append_of_positions (h : f.positions t) : f.append := by
  simp only [positions, Bool.and_eq_true] at h
  exact h.1.2

@[simp] theorem File.start_node (f : File) : f.start.node = f.node := by
  unfold start
  split <;> rfl

theorem File.after_of_pos (f : File) (h : 0 < data.length) :
    f.after data = f.start.put data :=
  if_neg (List.ne_nil_of_length_pos h)

/-- The write has moved `total` bytes so far. -/
structure WriteAt (addr size : Nat) (f : File) (m : UserMem) (total : Nat) (f' : File) : Prop where
  pos : 0 < total
  le : total ≤ size
  file : f' = { f.start.put (m.load addr total) with offset := f'.offset }
  offset : f.node.kind ≠ .stream → f'.offset = f.start.offset + total

namespace WriteAt

variable {total : Nat} {f' : File}

section
variable (h : WriteAt addr size f m total f')
include h

theorem kept : WriteKept addr size f m (.ok total, f') := by
  have haft : f.after (m.load addr total) = f.start.put (m.load addr total) :=
    f.after_of_pos (by simpa using h.pos)
  refine ⟨h.le, ?_, fun hse => ?_⟩
  · rw [haft, h.file]
  · rw [haft, h.offset hse]
    simp

theorem written :
    f'.node.written = f.node.written + total := by
  rw [h.file]
  simp

theorem flags :
    f'.writable = f.writable ∧ f'.append = f.append ∧ f'.node.kind = f.node.kind := by
  rw [h.file]
  unfold File.start
  split <;> exact ⟨rfl, rfl, rfl⟩

/-- To set the position to the end changes nothing, as the write goes on there. -/
theorem placed (hbk : f.node.kind = .framebuffer → ¬ f.positions t) :
    WriteAt addr size f m total (f'.placed t) := by
  unfold File.placed
  split
  next hpos =>
    have hfl : f'.toEnd = { f.start.put (m.load addr total) with offset := f'.toEnd.offset } := by
      rw [h.file]
      rfl
    refine ⟨h.pos, h.le, hfl, fun hse => ?_⟩
    obtain ⟨hw, ha, hkd⟩ := h.flags
    have hpos' : f.positions t := by rwa [File.positions, ← hw, ← ha]
    have happ := File.append_of_positions hpos'
    have hchar : f.node.kind.charDev = false := by
      cases hk : f.node.kind with
      | file | block => rfl
      | framebuffer => exact absurd hpos' (hbk hk)
      | stream => exact absurd hk hse
    have hnd : f'.node = f.node.put f.node.content.length (m.load addr total) := by
      rw [h.file]
      simp [File.start, happ, Node.statSize, hchar]
    simp [File.start, happ, Node.statSize, hchar, hnd,
      Fs.Append.writeAt_length]
  next => exact h

theorem put (hle : total + count ≤ size) :
    WriteAt addr size f m (total + count) (f'.put (m.load (addr + total) count)) := by
  have hdt : m.load addr total ≠ [] := List.ne_nil_of_length_pos (by simpa using h.pos)
  have hnd : f'.node.put f'.offset (m.load (addr + total) count) =
      f.node.put f.start.offset (m.load addr (total + count)) := by
    rw [h.file, load_add]
    by_cases hstr : f.node.kind = .stream
    · simp [hstr, Nat.add_assoc]
    have happ := writeAt_append f.node.content f.start.offset hdt
    rw [load_length] at happ
    simp [hstr, h.offset hstr, happ, Nat.add_assoc]
  refine ⟨Nat.add_pos_left h.pos _, hle, ?_, fun hse => ?_⟩
  · rw [File.put, hnd, h.file]
    simp
  · simp [h.offset hse, Nat.add_assoc]

end

end WriteAt

end Writes

/-- No address of user memory is mapped. -/
def unmapped : UserMem where
  bytes := fun _ => 0
  loadFault := fun _ => some .EFAULT
  storeFault := fun _ => some .EFAULT

end Vex.Proc.SysFile
