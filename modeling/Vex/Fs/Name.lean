/-! File names: C strings without their terminating NUL. -/

namespace Vex.Fs

abbrev Name := List UInt8

abbrev SLASH : UInt8 := 47

/-- `"."` and `".."`. -/
abbrev DOT : Name := [46]
abbrev DOTDOT : Name := [46, 46]

/-- The names every directory has for itself and its parent. -/
def isDots (name : Name) : Bool := name == DOT || name == DOTDOT

/-- The `VNODE_*` types a file system can create. -/
inductive NodeType
  | file | dir | symlink
  deriving DecidableEq, Repr

end Vex.Fs
