import Vex.Fs.Access
import Vex.Fs.Name
import Mathlib.Data.List.TakeWhile

/-! Path resolution (`path.c`) over a namespace of vnodes and mounts. Reference counts are left
out here: a vnode is its number, and every number stands for a vnode. -/

namespace Vex.Fs

abbrev NAME_MAX : Nat := 255
abbrev PATH_MAX : Nat := 4095
abbrev MAX_SYMLINK_DEPTH : Nat := 8

/-- `PATH_NOFOLLOW`, the one flag of path resolution. -/
abbrev PATH_NOFOLLOW : BitVec 32 := 1

/-- The fields of `vfs_t` that mounts and paths use. -/
structure Vfs where
  root : Nat
  mountpoint : Option Nat
  unmounting : Bool
  deriving DecidableEq, Repr

/-- The vnodes, the names that lead from one to another, and what is mounted where. File systems
are numbered in the order they were mounted, so each is mounted on a vnode of an older one. -/
structure Tree where
  type : Nat → VnodeType
  /-- The vnode's file system. -/
  fs : Nat → Option Nat
  parent : Nat → Option Nat
  mountedFs : Nat → Option Nat
  /-- `lookup_crossed`: the file a directory's own file system has under a name. -/
  entry : Nat → Name → Except Errno Nat
  /-- `ops->stat`. -/
  stat : Nat → Except Errno Stat
  /-- `vnode_readlink` into a buffer of the given size, with the buffer's own allocation. -/
  readlink : Nat → Nat → Except Errno (List UInt8)
  vfs : Nat → Vfs
  numFs : Nat
  vfsRoot : Option Nat
  fs_lt : ∀ v f, fs v = some f → f < numFs
  older : ∀ f m g, (vfs f).mountpoint = some m → fs m = some g → g < f

namespace Tree

variable (t : Tree) (credentials : Credentials)

/-- The file system whose root `dir` is, if it is mounted somewhere. -/
def coveredBy (dir : Nat) : Option Nat :=
  match t.fs dir with
  | some f => if (t.vfs f).root = dir then (t.vfs f).mountpoint else none
  | none => none

theorem coveredBy_eq_some : t.coveredBy dir = some m ↔
    ∃ f, t.fs dir = some f ∧ (t.vfs f).root = dir ∧ (t.vfs f).mountpoint = some m := by
  unfold coveredBy
  cases h : t.fs dir with
  | none => simp
  | some f => simp

/-- How many file systems a vnode is away from running out of mounts to climb. -/
def height (dir : Nat) : Nat := (t.fs dir).elim 0 (· + 1)

theorem height_lt (h : t.coveredBy dir = some m) : t.height m < t.height dir := by
  obtain ⟨f, hf, -, hm⟩ := t.coveredBy_eq_some.mp h
  unfold height
  cases hg : t.fs m with
  | none => simp [hf]
  | some g => simp [hf, t.older f m g hm hg]

def vfsGetRoot : Option Nat :=
  t.vfsRoot.bind fun root =>
    if (t.fs root).any fun f => (t.vfs f).unmounting then none else some root

def vfsCrossMount (node : Nat) : Except Errno Nat :=
  if t.type node ≠ .directory then .ok node
  else match t.mountedFs node with
    | none => .ok node
    | some f => if (t.vfs f).unmounting then .error .EBUSY else .ok (t.vfs f).root

def vnodeLookup (node : Nat) (name : Name) : Except Errno Nat := do
  let target ← t.vfsCrossMount node
  t.entry target name

def vnodeStat (node : Nat) : Except Errno Stat := do
  let target ← t.vfsCrossMount node
  t.stat target

def vnodeAccess (node : Nat) (mask : Mode) : Except Errno Unit := do
  let st ← t.vnodeStat node
  statAccess st credentials mask

/-- The loop of `parent_of`: from the root of a mounted file system to the directory it covers,
again and again. -/
def climb (dir : Nat) : Nat :=
  match _h : t.coveredBy dir with
  | some m => climb m
  | none => dir
termination_by t.height dir
decreasing_by exact t.height_lt ‹_›

def parentOf (dir : Nat) : Nat := (t.parent (t.climb dir)).getD (t.climb dir)

end Tree

/-- The text up to the next separator, and from there on. -/
def component (path : Name) : Name := path.takeWhile (· != SLASH)

def afterComponent (path : Name) : Name := path.dropWhile (· != SLASH)

def skipSeparators (path : Name) : Name := path.dropWhile (· == SLASH)

theorem head_skipSeparators (h : skipSeparators path = c :: cs) : c ≠ SLASH := by
  have hc := List.head?_dropWhile_not (· == SLASH) path
  rw [← skipSeparators, h] at hc
  simpa using hc

theorem afterComponent_length_lt (h : skipSeparators path = c :: cs) :
    (afterComponent (c :: cs)).length < path.length := by
  have hc := head_skipSeparators h
  have hle : (c :: cs).length ≤ path.length := h ▸ (List.dropWhile_sublist _).length_le
  have hrs : (cs.dropWhile (· != SLASH)).length ≤ cs.length :=
    (List.dropWhile_sublist _).length_le
  simp only [afterComponent, List.length_cons] at *
  rw [List.dropWhile_cons_of_pos (by simpa using hc)]
  omega

namespace Tree

variable (t : Tree) (credentials : Credentials)

/-- The loop of `resolve_internal` from `current` over the rest of the path. `follow` is
`follow_symlink` at this depth, given the link's directory, the link and the text after it. -/
def resolveLoop (follow : Nat → Nat → Name → BitVec 32 → Except Errno Nat) (flags : BitVec 32)
    (current : Nat) (path : Name) : Except Errno Nat :=
  match _h : skipSeparators path with
  | [] => .ok current
  | c :: cs =>
    let name := component (c :: cs)
    let rest := afterComponent (c :: cs)
    if name.length > NAME_MAX then .error .ENOTDIR
    else if t.type current ≠ .directory then .error .ENOTDIR
    else match t.vnodeAccess credentials current X_OK with
      | .error e => .error e
      | .ok () =>
        if name = DOT then resolveLoop follow flags current rest
        else if name = DOTDOT then resolveLoop follow flags (t.parentOf current) rest
        else match t.vnodeLookup current name with
          | .error e => .error e
          | .ok next =>
            -- a trailing separator is more path: "link/" leads to what is behind the link
            if t.type next = .symLink ∧ (rest ≠ [] ∨ flags &&& PATH_NOFOLLOW = 0) then
              follow current next rest flags
            else resolveLoop follow flags next rest
termination_by path.length
decreasing_by all_goals exact afterComponent_length_lt ‹_›

/-- `follow_symlink` at a depth that is not past the limit; `resolve` is `resolve_internal` one
level deeper. -/
def followSymlink (resolve : Nat → Name → BitVec 32 → Except Errno Nat)
    (node link : Nat) (rest : Name) (flags : BitVec 32) : Except Errno Nat := do
  let target ← t.readlink link PATH_MAX
  if target.length > PATH_MAX then .error .ENAMETOOLONG
  else
    -- the buffer is used as a C string
    let target := target.takeWhile (· != 0)
    let targetFlags := if rest ≠ [] then 0 else flags
    let resolved ← match target with
      | c :: path =>
        if c = SLASH then
          match t.vfsGetRoot with
          | none => .error .ENOENT
          | some root => resolve root path targetFlags
        else resolve node target targetFlags
      | [] => resolve node target targetFlags
    if rest ≠ [] then resolve resolved rest flags else .ok resolved

/-- `resolve_internal` with `links` more links to follow, `MAX_SYMLINK_DEPTH + 1 - depth` of the
source: at none left, `depth > MAX_SYMLINK_DEPTH`. -/
def resolveInternal : (links : Nat) → Nat → Name → BitVec 32 → Except Errno Nat
  | 0, base, path, flags =>
    t.resolveLoop credentials (fun _ _ _ _ => .error .ELOOP) flags base path
  | links + 1, base, path, flags =>
    t.resolveLoop credentials (t.followSymlink (resolveInternal links)) flags base path

def pathResolveAt (baseDir : Option Nat) (path : Name) (flags : BitVec 32) : Except Errno Nat :=
  match path with
  | [] => .error .ENOENT
  | c :: cs =>
    match baseDir, decide (c = SLASH) with
    | some base, false =>
      t.resolveInternal credentials (MAX_SYMLINK_DEPTH + 1) base (c :: cs) flags
    | _, _ =>
      match t.vfsGetRoot with
      | none => .error .ENOENT
      | some root =>
        t.resolveInternal credentials (MAX_SYMLINK_DEPTH + 1) root (skipSeparators (c :: cs)) flags

def pathResolve (path : Name) : Except Errno Nat :=
  if path.head? ≠ some SLASH then .error .EINVAL
  else t.pathResolveAt credentials none path 0

end Tree

end Vex.Fs
