import Mathlib.Data.UInt
import Mathlib.Tactic.Ring

/-! Byte stores: functions from positions to bytes, copies between them, little-endian fields of
any width, and the bits of a byte. -/

namespace Vex.Lib

open BitVec

abbrev Bytes := Nat → UInt8

variable {b b' src : Bytes} {m n o o' off v x i j k : Nat}

/-- `n` bytes of `src` copied over `b` from position `off` on. -/
def blit (b : Bytes) (off n : Nat) (src : Bytes) : Bytes := fun x =>
  if off ≤ x ∧ x < off + n then src (x - off) else b x

/-- The `n` bytes of `b` from position `off` on, zeros after them. -/
def window (b : Bytes) (off n : Nat) : Bytes := fun i => if i < n then b (off + i) else 0

theorem blit_of_mem (h : i < n) : blit b off n src (off + i) = src i := by
  rw [blit, if_pos ⟨by omega, by omega⟩, Nat.add_sub_cancel_left]

theorem blit_of_not_mem (h : x < off ∨ off + n ≤ x) : blit b off n src x = b x := if_neg (by omega)

theorem window_of_lt (h : i < n) : window b off n i = b (off + i) := if_pos h

/-! ## Little-endian fields -/

/-- The `n`-byte little-endian number at position `o`. -/
def le : Nat → Bytes → Nat → Nat
  | 0, _, _ => 0
  | n + 1, b, o => (b o).toNat + 256 * le n b (o + 1)

/-- The base-256 digits of `v`, least significant first. -/
def digits (v : Nat) : Bytes := fun i => UInt8.ofNat (v / 256 ^ i)

/-- Stores the `n` low bytes of `v` at position `o`. -/
def putLe (n : Nat) (b : Bytes) (o v : Nat) : Bytes := blit b o n (digits v)

theorem le_lt : le n b o < 256 ^ n := by
  induction n generalizing o with
  | zero => exact Nat.one_pos
  | succ n ih =>
    have hbt : (b o).toNat < 256 := (b o).toNat_lt
    have hrs := ih (o := o + 1)
    rw [le]
    omega

theorem le_congr (h : ∀ i < n, b (o + i) = b' (o' + i)) : le n b o = le n b' o' := by
  induction n generalizing o o' with
  | zero => rfl
  | succ n ih =>
    have hrs : le n b (o + 1) = le n b' (o' + 1) := ih fun i hi => by
      simpa only [Nat.add_assoc, Nat.add_comm 1 i] using h (i + 1) (by omega)
    have hbt : b o = b' o' := h 0 (Nat.succ_pos n)
    rw [le, le, hbt, hrs]

theorem le_digits : le n (digits v) i = v / 256 ^ i % 256 ^ n := by
  induction n generalizing i with
  | zero => rw [le, Nat.pow_zero, Nat.mod_one]
  | succ n ih =>
    have hbt : (digits v i).toNat = v / 256 ^ i % 256 := UInt8.toNat_ofNat'
    rw [le, ih, hbt, Nat.pow_succ, ← Nat.div_div_eq_div_mul, Nat.pow_succ,
      Nat.mul_comm (256 ^ n) 256, Nat.mod_mul]

@[simp] theorem le_putLe_self : le n (putLe n b o v) o = v % 256 ^ n := by
  have hcp : le n (putLe n b o v) o = le n (digits v) 0 :=
    le_congr fun i hi => by rw [putLe, blit_of_mem hi, Nat.zero_add]
  rw [hcp, le_digits, Nat.pow_zero, Nat.div_one]

theorem le_putLe_of_disjoint (h : o' + m ≤ o ∨ o + n ≤ o') :
    le m (putLe n b o v) o' = le m b o' :=
  le_congr fun i hi => blit_of_not_mem (by omega)

/-- A field of a packed record: where it starts and how many bytes it has. -/
structure Field where
  offset : Nat
  width : Nat

namespace Field

variable {f g : Field}

def get (f : Field) (b : Bytes) : Nat := le f.width b f.offset

def put (f : Field) (b : Bytes) (v : Nat) : Bytes := putLe f.width b f.offset v

/-- The fields share no byte. -/
def Apart (f g : Field) : Prop := f.offset + f.width ≤ g.offset ∨ g.offset + g.width ≤ f.offset

instance : Decidable (Apart f g) := inferInstanceAs (Decidable (_ ∨ _))

theorem get_put (f : Field) (b : Bytes) (v : Nat) : f.get (f.put b v) = v % 256 ^ f.width :=
  le_putLe_self

theorem get_put_of_apart (h : f.Apart g) : f.get (g.put b v) = f.get b := le_putLe_of_disjoint h

end Field

/-! ## Bits -/

def getBit (byte : UInt8) (k : Nat) : Bool := byte.toBitVec &&& (1#8 <<< k) != 0#8

def setBit (byte : UInt8) (k : Nat) : UInt8 := ⟨byte.toBitVec ||| (1#8 <<< k)⟩

def unsetBit (byte : UInt8) (k : Nat) : UInt8 := ⟨byte.toBitVec &&& ~~~(1#8 <<< k)⟩

/-- The bit `k` of the bitmap that starts at byte `off`. -/
def bitAt (b : Bytes) (off k : Nat) : Bool := getBit (b (off + k / 8)) (k % 8)

theorem getLsbD_one_shiftLeft (hj : j < 8) : (1#8 <<< k).getLsbD j = decide (j = k) := by
  by_cases h : j = k
  · simp [h]
    omega
  · simp [h]
    omega

theorem getBit_eq (byte : UInt8) (hk : k < 8) : getBit byte k = byte.toBitVec.getLsbD k := by
  have hbit : ∀ i < 8, (byte.toBitVec &&& 1#8 <<< k).getLsbD i =
      (byte.toBitVec.getLsbD i && decide (i = k)) := fun i hi => by
    rw [getLsbD_and, getLsbD_one_shiftLeft hi]
  cases hv : byte.toBitVec.getLsbD k with
  | false =>
    have hz : byte.toBitVec &&& 1#8 <<< k = 0#8 := eq_of_getLsbD_eq fun i hi => by
      rw [hbit i hi, getLsbD_zero]
      by_cases h : i = k
      · rw [h, hv, Bool.false_and]
      · simp [h]
    rw [getBit, hz, bne_self_eq_false]
  | true =>
    rw [getBit, bne_iff_ne]
    intro hz
    have hk' := hbit k hk
    rw [hz, hv] at hk'
    simp at hk'

theorem getBit_setBit (byte : UInt8) (hj : j < 8) :
    getBit (setBit byte k) j = (getBit byte j || decide (j = k)) := by
  rw [getBit_eq _ hj, getBit_eq _ hj, setBit, getLsbD_or, getLsbD_one_shiftLeft hj]

theorem getBit_unsetBit (byte : UInt8) (hj : j < 8) :
    getBit (unsetBit byte k) j = (getBit byte j && !decide (j = k)) := by
  rw [getBit_eq _ hj, getBit_eq _ hj, unsetBit, getLsbD_and, getLsbD_not, getLsbD_one_shiftLeft hj]
  simp [hj]

theorem getBit_full (hk : k < 8) : getBit 0xFF k = true := by
  decide +revert

theorem getBit_zero (k : Nat) : getBit 0 k = false := by
  rw [getBit, UInt8.toBitVec_ofNat, zero_and, bne_self_eq_false]

theorem bitAt_blit_of_not_mem (h : o + k / 8 < off ∨ off + n ≤ o + k / 8) :
    bitAt (blit b off n src) o k = bitAt b o k := by
  rw [bitAt, bitAt, blit_of_not_mem h]

/-- The bitmap after one byte of it is replaced: the bits of that byte are those of the new one. -/
theorem bitAt_blit_byte (byte : UInt8) :
    bitAt (blit b (o + k / 8) 1 fun _ => byte) o j =
      if j / 8 = k / 8 then getBit byte (j % 8) else bitAt b o j := by
  split
  case isTrue h => rw [bitAt, h, ← Nat.add_zero (o + k / 8), blit_of_mem Nat.one_pos]
  case isFalse h => exact bitAt_blit_of_not_mem (by omega)

theorem bitAt_set : bitAt (blit b (o + k / 8) 1 fun _ => setBit (b (o + k / 8)) (k % 8)) o j =
    (bitAt b o j || decide (j = k)) := by
  rw [bitAt_blit_byte]
  split
  case isTrue h =>
    have heq : j % 8 = k % 8 ↔ j = k := by omega
    rw [getBit_setBit _ (Nat.mod_lt _ (by decide)), bitAt, h]
    simp only [heq]
  case isFalse h =>
    have hne : j ≠ k := fun hjk => h (by rw [hjk])
    simp [hne]

theorem bitAt_unset : bitAt (blit b (o + k / 8) 1 fun _ => unsetBit (b (o + k / 8)) (k % 8)) o j =
    (bitAt b o j && !decide (j = k)) := by
  rw [bitAt_blit_byte]
  split
  case isTrue h =>
    have heq : j % 8 = k % 8 ↔ j = k := by omega
    rw [getBit_unsetBit _ (Nat.mod_lt _ (by decide)), bitAt, h]
    simp only [heq]
  case isFalse h =>
    have hne : j ≠ k := fun hjk => h (by rw [hjk])
    simp [hne]

end Vex.Lib
