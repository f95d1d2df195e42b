import Vex.Lib.Bytes

/-! Letter case and the comparison of strings that ignores it: `libk/ctype.c` and `libk/strings.c`.
The kernel is built with `-funsigned-char`. -/

namespace Vex.Libk

open Lib (Bytes)

/-- The first byte that the table `ctype` has no line for. The table is longer, so that the fields
of the others are zero. -/
abbrev CTYPE_END : UInt8 := 0xD9

def tolower (c : UInt8) : UInt8 :=
  if CTYPE_END ≤ c then 0 else if 65 ≤ c ∧ c ≤ 90 then c + 32 else c

def toupper (c : UInt8) : UInt8 :=
  if CTYPE_END ≤ c then 0 else if 97 ≤ c ∧ c ≤ 122 then c - 32 else c

def strncasecmp : (size : Nat) → (sa sb : Bytes) → Int
  | 0, _, _ => 0
  | size + 1, sa, sb =>
    if sa 0 ≠ 0 ∧ tolower (sa 0) = tolower (sb 0) then
      strncasecmp size (fun i => sa (i + 1)) fun i => sb (i + 1)
    else (tolower (sa 0)).toNat - (tolower (sb 0)).toNat

/-- A C string in memory, with what follows its NUL. -/
def cstr (text : List UInt8) (rest : Bytes) : Bytes := fun i =>
  if i < text.length then text.getD i 0
  else if i = text.length then 0
  else rest (i - text.length - 1)

end Vex.Libk
