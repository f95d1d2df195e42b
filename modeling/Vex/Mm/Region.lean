import Vex.Errno
import Vex.Lib.Intervals
import Vex.Mm.Page

/-! The region list of an address space (`mm/vms.c`, `find_region` to `alloc_region`), and the
partial map from addresses to page properties that it stands for.

The list is the source's `next` chain. A pointer into it is the suffix that starts there, so
`seek` returns the regions before the found one and the suffix that begins with it. Reference
counts of files and the list of device regions (read by `vms_revoke` alone) are left out. -/

namespace Vex.Mm

open Lib.Intervals

/-- `vm_region_t`. The field `stop` is the source's `end`; `file` is a pointer that may be null
and `file_offset` is an `off_t`, whose sums wrap. -/
structure Region where
  start : Nat
  stop : Nat
  vprot : Vprot
  file : Option Nat
  fileOffset : BitVec 64
  shared : Bool
  mayWrite : Bool
  device : Bool
  deriving DecidableEq

/-- `vm_backing_t`. -/
structure Backing where
  file : Option Nat
  fileOffset : BitVec 64
  shared : Bool
  mayWrite : Bool
  device : Bool
  deriving DecidableEq

/-! ## The functions of the source -/

/-- The walk of `find_region`: the regions before the one that has `virt`, and the list from
that one on, empty when there is none. -/
def seek (virt : Nat) : List Region → List Region × List Region
  | [] => ([], [])
  | it :: rest =>
    if it.start ≤ virt then
      if virt < it.stop then ([], it :: rest)
      else ((it :: (seek virt rest).1), (seek virt rest).2)
    else (it :: rest, [])

def findRegion (regions : List Region) (virt : Nat) : Option Region := (seek virt regions).2.head?

def rangeFree (start stop : Nat) : List Region → Bool
  | [] => true
  | it :: rest =>
    if it.start < stop then if it.stop > start then false else rangeFree start stop rest
    else true

def insertRegion (region : Region) : List Region → List Region
  | [] => [region]
  | it :: rest =>
    if it.start < region.start then it :: insertRegion region rest else region :: it :: rest

/-- The upper half that `split_region` allocates. -/
def Region.above (region : Region) (virt : Nat) : Region :=
  { region with
    start := virt
    fileOffset := region.fileOffset + BitVec.ofNat 64 (virt - region.start) }

/-- The lower half that is left. -/
def Region.below (region : Region) (virt : Nat) : Region := { region with stop := virt }

/-- `split_region`; `slab` is whether `slab_alloc` finds memory for the upper half. -/
def splitRegion (slab : Bool) (regions : List Region) (virt : Nat) :
    Except Errno (List Region) :=
  match seek virt regions with
  | (_, []) => .ok regions
  | (before, region :: rest) =>
    if region.start = virt then .ok regions
    else if !slab then .error .ENOMEM
    else .ok (before ++ region.below virt :: region.above virt :: rest)

/-- The loop of `range_covered`, with `covered` and the pointer `it`. -/
def coveredFrom (stop covered : Nat) : List Region → Nat
  | [] => covered
  | it :: rest =>
    if it.start ≤ covered ∧ covered < stop then coveredFrom stop it.stop rest else covered

def rangeCovered (regions : List Region) (start stop : Nat) : Bool :=
  coveredFrom stop start (seek start regions).2 ≥ stop

def rangeValid (userEnd start stop : Nat) : Bool :=
  if pageOffset start ≠ 0 ∨ pageOffset stop ≠ 0 then false
  else start < stop ∧ stop ≤ userEnd

/-- The loop of `unmap_locked`: the list that is left and the regions taken out, in order. -/
def takeOut (start stop : Nat) : List Region → List Region × List Region
  | [] => ([], [])
  | it :: rest =>
    if it.start < stop then
      if it.start < start then (it :: (takeOut start stop rest).1, (takeOut start stop rest).2)
      else ((takeOut start stop rest).1, it :: (takeOut start stop rest).2)
    else (it :: rest, [])

/-- The loop of `find_highest_gap`, with `gap_start` and what `out` holds so far. -/
def highestGapFrom (size gapStart : Nat) (out : Option Nat) : List Region → Option Nat
  | [] =>
    if VMS_MMAP_TOP > gapStart ∧ VMS_MMAP_TOP - gapStart ≥ size then some (VMS_MMAP_TOP - size)
    else out
  | it :: rest =>
    let gapEnd := if it.start < VMS_MMAP_TOP then it.start else VMS_MMAP_TOP
    let out := if gapEnd > gapStart ∧ gapEnd - gapStart ≥ size then some (gapEnd - size) else out
    if it.start ≥ VMS_MMAP_TOP then out
    else highestGapFrom size (if it.stop > gapStart then it.stop else gapStart) out rest

def findHighestGap (regions : List Region) (size : Nat) : Option Nat :=
  highestGapFrom size VMS_MMAP_MIN none regions

/-- `alloc_region`, once `slab_alloc` found memory. -/
def allocRegion (start stop : Nat) (vprot : Vprot) (backing : Option Backing) : Region :=
  match backing with
  | some ⟨some file, fileOffset, shared, mayWrite, device⟩ =>
    ⟨start, stop, vprot &&& ~~~VPROT_USER, some file, fileOffset, shared, mayWrite, device⟩
  | _ => ⟨start, stop, vprot &&& ~~~VPROT_USER, none, 0, false, true, false⟩

/-- The loop of `vms_protect` over the regions from a pointer on: those that start before
`stop` get the new rights. -/
def protectFrom (stop : Nat) (vprot : Vprot) : List Region → List Region
  | [] => []
  | it :: rest =>
    if it.start < stop then { it with vprot := vprot } :: protectFrom stop vprot rest
    else it :: rest

/-- The first loop of `vms_protect`: whether some region in reach may never be written. -/
def writeForbidden (stop : Nat) : List Region → Bool
  | [] => false
  | it :: rest => if it.start < stop then !it.mayWrite || writeForbidden stop rest else false

/-! ## The abstract map -/

/-- What the region list says about one page. An anonymous page has no file offset. -/
structure PageInfo where
  vprot : Vprot
  file : Option (Nat × BitVec 64)
  shared : Bool
  mayWrite : Bool
  device : Bool
  deriving DecidableEq

/-- What a region says about an address in it. -/
def Region.info (r : Region) (x : Nat) : PageInfo :=
  { vprot := r.vprot
    file := r.file.map fun f => (f, r.fileOffset + BitVec.ofNat 64 (x - r.start))
    shared := r.shared
    mayWrite := r.mayWrite
    device := r.device }

/-- The partial map the region list stands for. -/
def pageMap (regions : List Region) : Nat → Option PageInfo :=
  valueAt Region.start Region.stop Region.info regions

/-- The shape of a region list: sorted by start, non-empty, page-aligned, pairwise disjoint and
below the end of user space. -/
structure RegionsWF (userEnd : Nat) (l : List Region) : Prop where
  ordered : Ordered Region.start Region.stop l
  alignedStart : ∀ r ∈ l, pageOffset r.start = 0
  alignedStop : ∀ r ∈ l, pageOffset r.stop = 0
  inside : ∀ r ∈ l, r.stop ≤ userEnd

end Vex.Mm
