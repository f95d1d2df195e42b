import Mathlib.Algebra.Group.Nat.Defs

/-! Bounded string copies: `libk/strings.c`, over `strnlen` and `memcpy` of `libk/string.c`. A
source string is its bytes before the NUL, a destination the bytes of the buffer from the pointer
on, which a step of the pointer leaves behind. A store behind the buffer faults. -/

namespace Vex.Libk

open List

/-- The bytes of a string, without its NUL. -/
structure CString where
  bytes : List UInt8
  noNul : 0 ∉ bytes

def SIZE_MAX : Nat := 2 ^ 64 - 1

/-- `--size` on a `size_t`. -/
def decr (size : Nat) : Nat := if size = 0 then SIZE_MAX else size - 1

def store (dst : List UInt8) (i : Nat) (c : UInt8) : Option (List UInt8) :=
  if i < dst.length then some (dst.set i c) else none

def strnlen (size : Nat) : (str : List UInt8) → (i : Nat) → Nat
  | [], i => i
  | _ :: str, i => if i < size then strnlen size str (i + 1) else i

def memcpy : (dst src : List UInt8) → (size : Nat) → Option (List UInt8)
  | dst, _, 0 => some dst
  | _ :: dst, c :: src, size + 1 => (memcpy dst src size).map (c :: ·)
  | _, _, _ => none

/-- What `kstrncat` does at the end of the destination. -/
def kstrncatEnd (dst : List UInt8) (src : CString) (size : Nat) : Option (List UInt8) := do
  let nc := strnlen (decr size) src.bytes 0
  memcpy (← store dst nc 0) src.bytes nc

def kstrncat : (dst : List UInt8) → (src : CString) → (size : Nat) → Option (List UInt8)
  | [], _, _ => none
  | c :: dst, src, size =>
    if c = 0 then kstrncatEnd (c :: dst) src size
    else if size = 0 then kstrncatEnd (c :: dst) src (decr size)
    else (kstrncat dst src (decr size)).map (c :: ·)

/-- What `kstrncpy` does after its loop. -/
def kstrncpyEnd (dst : List UInt8) (size : Nat) : Option (List UInt8) :=
  if size ≠ 0 then store dst 0 0 else some dst

def kstrncpy : (dst src : List UInt8) → (size : Nat) → Option (List UInt8)
  | dst, [], size => kstrncpyEnd dst size
  | dst, c :: src, size =>
    if size = 0 then kstrncpyEnd dst (decr size)
    else match dst with
      | [] => none
      | _ :: dst => (kstrncpy dst src (decr size)).map (c :: ·)

variable {dst src rest : List UInt8} {i nc size : Nat}

theorem strnlen_eq (hi : i ≤ size) : strnlen size src i = min (i + src.length) size := by
  induction src generalizing i with
  | nil => rw [strnlen, length_nil]; omega
  | cons c src ih =>
    rw [strnlen, length_cons]
    split
    case isTrue hlt => rw [ih hlt]; omega
    case isFalse => omega

theorem memcpy_eq (hdst : size ≤ dst.length) (hsrc : size ≤ src.length) :
    memcpy dst src size = some (src.take size ++ dst.drop size) := by
  induction size generalizing dst src with
  | zero => rw [memcpy, take_zero, drop_zero, nil_append]
  | succ size ih =>
    obtain _ | ⟨b, dst⟩ := dst
    · cases hdst
    obtain _ | ⟨c, src⟩ := src
    · cases hsrc
    rw [memcpy, ih (Nat.le_of_succ_le_succ hdst) (Nat.le_of_succ_le_succ hsrc)]
    rfl

theorem kstrncatEnd_eq (src : CString) (hnc : nc = min src.bytes.length rest.length) :
    kstrncatEnd (0 :: rest) src (rest.length + 1) =
      some (src.bytes.take nc ++ 0 :: rest.drop nc) := by
  have hlen : strnlen (decr (rest.length + 1)) src.bytes 0 = nc := by
    rw [decr, if_neg (Nat.succ_ne_zero _), strnlen_eq (Nat.zero_le _), Nat.zero_add, hnc]
    rfl
  have hrm : nc < (0 :: rest).length := by rw [length_cons]; omega
  simp only [kstrncatEnd, hlen, store, if_pos hrm, Option.bind_eq_bind, Option.bind_some]
  rw [memcpy_eq (by rw [length_set]; omega) (by omega), drop_set,
    if_neg (Nat.lt_irrefl _), Nat.sub_self, drop_eq_getElem_cons hrm]
  rfl

theorem kstrncat_eq (src old : CString) (hnc : nc = min src.bytes.length rest.length) :
    kstrncat (old.bytes ++ 0 :: rest) src (old.bytes.length + 1 + rest.length) =
      some (old.bytes ++ (src.bytes.take nc ++ 0 :: rest.drop nc)) := by
  obtain ⟨old, hnul⟩ := old
  induction old with
  | nil =>
    rw [length_nil, Nat.zero_add, Nat.add_comm]
    exact kstrncatEnd_eq src hnc
  | cons c old ih =>
    rw [mem_cons, not_or] at hnul
    have hsz : (c :: old).length + 1 + rest.length ≠ 0 := by omega
    have hrs : (c :: old).length + 1 + rest.length - 1 = old.length + 1 + rest.length := by
      rw [length_cons]; omega
    rw [cons_append, kstrncat, if_neg (Ne.symm hnul.1), if_neg hsz, decr, if_neg hsz,
      hrs, ih hnul.2]
    rfl

/-- The NUL of a string as long as the buffer is dropped, that of a longer one goes behind it, as
the counter has wrapped. -/
theorem kstrncpy_eq (dst src : List UInt8) : kstrncpy dst src dst.length =
    if src.length ≤ dst.length then some (if src.length < dst.length then
      src ++ 0 :: dst.drop (src.length + 1) else src.take dst.length)
    else none := by
  induction src generalizing dst with
  | nil =>
    cases dst with
    | nil => rfl
    | cons b dst => simp [kstrncpy, kstrncpyEnd, store]
  | cons c src ih =>
    cases dst with
    | nil => rfl
    | cons b dst =>
      simp only [kstrncpy, decr, length_cons, ih, Nat.succ_ne_zero, if_false,
        Nat.add_sub_cancel, Nat.add_le_add_iff_right, Nat.add_lt_add_iff_right]
      split
      case isTrue => split <;> rfl
      case isFalse => rfl

/-- Bounded copies stay in the buffer of `size` bytes, if the string copied is no longer than it: a
longer one has its NUL stored behind the buffer, as the counter has wrapped. -/
theorem bounded_copies_iff (size : Nat) (src : CString) :
    ((∀ dst : List UInt8, dst.length = size → kstrncpy dst src.bytes size =
      some (if src.bytes.length < size then src.bytes ++ 0 :: dst.drop (src.bytes.length + 1)
        else src.bytes.take size)) ∧
      ∀ (old : CString) (rest : List UInt8), old.bytes.length + 1 + rest.length = size →
        ∀ nc, nc = min src.bytes.length (size - 1 - old.bytes.length) →
        kstrncat (old.bytes ++ 0 :: rest) src size =
          some (old.bytes ++ (src.bytes.take nc ++ 0 :: rest.drop nc))) ↔
      src.bytes.length ≤ size := by
  constructor
  · rintro ⟨hcpy, -⟩
    refine Nat.le_of_not_lt fun hlong => ?_
    have hnone := kstrncpy_eq (replicate size 0) src.bytes
    rw [length_replicate, if_neg (Nat.not_le.mpr hlong), hcpy _ length_replicate] at hnone
    cases hnone
  · refine fun hle => ⟨fun dst hdst => ?_, fun old rest hsize nc hnc => ?_⟩
    · subst hdst
      rw [kstrncpy_eq, if_pos hle]
    · subst hsize
      exact kstrncat_eq src old (by omega)

theorem long_copy_leaves_buffer : kstrncpy [7] [97, 98] 1 = none := rfl

end Vex.Libk
