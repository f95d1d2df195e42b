import Vex.Errno
import Vex.Lib.Trie
import Vex.Mm.Page

/-! Page tables: `mm/pmap.c` over the entries of `arch/pmap.h`. Physical memory is read page by page
as tables of entries; a table is known by the physical address of its page, so that `phys_to_virt`
and `virt_to_phys` leave no trace. Locks and TLB flushes are left out. -/

namespace Vex.Mm.PageTables

/-! ## Entries: `arch/pmap.h` -/

abbrev Pmentry := BitVec 64

def AMD64_PML_ADDRESS_MASK : Pmentry := 0x000FFFFFFFFFF000
def AMD64_PML_PRESENT : Pmentry := 0x0000000000000001
def AMD64_PML_WRITE : Pmentry := 0x0000000000000002
def AMD64_PML_USER : Pmentry := 0x0000000000000004
def AMD64_PML_PWT : Pmentry := 0x0000000000000008
def AMD64_PML_PCD : Pmentry := 0x0000000000000010
/-- In a 4 KiB entry. -/
def AMD64_PML_PAT : Pmentry := 0x0000000000000080
/-- PS, in a 2 MiB or 1 GiB entry. -/
def AMD64_PML_LARGE : Pmentry := 0x0000000000000080
/-- PAT, in a 2 MiB or 1 GiB entry. -/
def AMD64_PML_PATL : Pmentry := 0x0000000000001000
def AMD64_PML_NOEXEC : Pmentry := 0x8000000000000000

def PMENTRY_LEVEL_MASK : BitVec 64 := 0x1FF
def PMENTRY_NULL : Pmentry := 0
abbrev PAGEMAP_SIZE : Nat := 512

def VPROT_CACHE_WB : Vprot := 0x0000
def VPROT_CACHE_WT : Vprot := 0x0010
def VPROT_CACHE_UC : Vprot := 0x0020
def VPROT_CACHE_WC : Vprot := 0x0030

def pmentryLevelShift (level : Nat) : Nat :=
  PMENTRY_LVL1_SHIFT + PMENTRY_LEVEL_BITS * (level - 1)

def pmentryLevelSize (level : Nat) : BitVec 64 := 1#64 <<< pmentryLevelShift level

def amd64PatBit (level : Nat) : Pmentry := if level > 1 then AMD64_PML_PATL else AMD64_PML_PAT

def amd64PatBits (vprot : Vprot) (level : Nat) : Pmentry :=
  if vprot &&& VPROT_CACHE_MASK = VPROT_CACHE_WT then AMD64_PML_PWT
  else if vprot &&& VPROT_CACHE_MASK = VPROT_CACHE_UC then AMD64_PML_PCD ||| AMD64_PML_PWT
  else if vprot &&& VPROT_CACHE_MASK = VPROT_CACHE_WC then amd64PatBit level
  else 0

/-- `types` of `amd64_pat_vprot`. -/
def amd64PatTypes : List Vprot :=
  [VPROT_CACHE_WB, VPROT_CACHE_WT, VPROT_CACHE_UC, VPROT_CACHE_UC,
    VPROT_CACHE_WC, VPROT_CACHE_WT, VPROT_CACHE_UC, VPROT_CACHE_UC]

def amd64PatVprot (entry : Pmentry) (level : Nat) : Vprot :=
  let index := if entry &&& AMD64_PML_PWT ≠ 0 then 1 else 0
  let index := if entry &&& AMD64_PML_PCD ≠ 0 then index ||| 2 else index
  let index := if entry &&& amd64PatBit level ≠ 0 then index ||| 4 else index
  amd64PatTypes.getD index VPROT_CACHE_WB

def pmentryValid (entry : Pmentry) : Bool := entry &&& AMD64_PML_PRESENT != 0

def pmentryLeaf (entry : Pmentry) (level : Nat) : Bool :=
  level == 1 || entry &&& AMD64_PML_LARGE != 0

def pmentryAddress (entry : Pmentry) (level : Nat) : BitVec 64 :=
  entry &&& AMD64_PML_ADDRESS_MASK &&& ~~~(pmentryLevelSize level - 1)

def pmentryTableAddress (entry : Pmentry) : BitVec 64 := entry &&& AMD64_PML_ADDRESS_MASK

def pmentryVprot (entry : Pmentry) (level : Nat) : Vprot :=
  let vprot := VPROT_READ
  let vprot := if entry &&& AMD64_PML_WRITE ≠ 0 then vprot ||| VPROT_WRITE else vprot
  let vprot := if entry &&& AMD64_PML_USER ≠ 0 then vprot ||| VPROT_USER else vprot
  let vprot := if entry &&& AMD64_PML_NOEXEC = 0 then vprot ||| VPROT_EXEC else vprot
  vprot ||| amd64PatVprot entry level

def pmentrySetup (address : BitVec 64) (vprot : Vprot) (level : Nat) : Pmentry :=
  let result := PMENTRY_NULL
  let result := result ||| address &&& AMD64_PML_ADDRESS_MASK
  let result := result ||| AMD64_PML_PRESENT
  let result := result ||| AMD64_PML_NOEXEC
  let result := if level > 1 then result ||| AMD64_PML_LARGE else result
  let result := if vprot &&& VPROT_WRITE ≠ 0 then result ||| AMD64_PML_WRITE else result
  let result := if vprot &&& VPROT_USER ≠ 0 then result ||| AMD64_PML_USER else result
  let result := if vprot &&& VPROT_EXEC ≠ 0 then result &&& ~~~AMD64_PML_NOEXEC else result
  result ||| amd64PatBits vprot level

def pmentryTable (address : BitVec 64) : Pmentry :=
  address &&& AMD64_PML_ADDRESS_MASK ||| AMD64_PML_PRESENT ||| AMD64_PML_WRITE |||
    AMD64_PML_USER

/-! ## Tables -/

/-- `pmap_t` with the memory its tables are in. -/
structure Pmap where
  numLevels : Nat
  root : BitVec 64
  /-- Physical memory, page by page. -/
  tables : BitVec 64 → Fin PAGEMAP_SIZE → Pmentry
  /-- The pages the page allocator has handed out. -/
  used : BitVec 64 → Bool
  /-- The answers of the page allocator to come. -/
  frames : List (BitVec 64)

/-- `pmentry_t*`: an entry of a table. -/
structure EntryRef where
  table : BitVec 64
  index : Fin PAGEMAP_SIZE
  deriving DecidableEq

namespace Pmap

def entry (p : Pmap) (ref : EntryRef) : Pmentry := p.tables ref.table ref.index

/-- `*entry = value`. -/
def write (p : Pmap) (ref : EntryRef) (value : Pmentry) : Pmap :=
  { p with tables := Lib.Trie.put p.tables ref.table ref.index value }

/-- Stores to all entries of a page. -/
def fill (p : Pmap) (table : BitVec 64) (entries : Fin PAGEMAP_SIZE → Pmentry) : Pmap :=
  { p with tables := Function.update p.tables table entries }

end Pmap

/-- An address the page allocator can return: of a whole page, not the first one. -/
def IsFrame (phys : BitVec 64) : Prop := phys ≠ 0 ∧ phys &&& AMD64_PML_ADDRESS_MASK = phys

instance (phys : BitVec 64) : Decidable (IsFrame phys) := inferInstanceAs (Decidable (_ ∧ _))

/-- `pslab_alloc_phys`, which returns no page that is in use. -/
def pslabAllocPhys (p : Pmap) : BitVec 64 × Pmap :=
  match p.frames with
  | [] => (0, p)
  | phys :: frames =>
    if IsFrame phys ∧ p.used phys = false then
      (phys, { p with used := Function.update p.used phys true, frames := frames })
    else (0, { p with frames := frames })

def pteIndex (virt : BitVec 64) (level : Nat) : Fin PAGEMAP_SIZE :=
  ⟨(virt >>> pmentryLevelShift level &&& PMENTRY_LEVEL_MASK).toNat,
    (Nat.and_le_right (n := _) (m := 511)).trans_lt (by decide)⟩

def pmentryGet (p : Pmap) (ref : EntryRef) (allocate : Bool) : Option (BitVec 64) × Pmap :=
  if pmentryValid (p.entry ref) then (some (pmentryTableAddress (p.entry ref)), p)
  else if allocate then
    match pslabAllocPhys p with
    | (phys, p) =>
      if phys ≠ 0 then
        (some phys, (p.fill phys fun _ => 0).write ref (pmentryTable phys))
      else (none, p)
  else (none, p)

/-- The loop of `pmentry_walk`: the entry or none, and `*out_level`. -/
def pmentryWalkFrom (virt : BitVec 64) (leafLevel : Nat) (allocate : Bool) :
    (level : Nat) → (table : BitVec 64) → Pmap → (Option EntryRef × Nat) × Pmap
  | 0, table, p => ((some ⟨table, pteIndex virt 0⟩, 0), p)
  | level + 1, table, p =>
    let ref : EntryRef := ⟨table, pteIndex virt (level + 1)⟩
    if level + 1 > leafLevel then
      if pmentryValid (p.entry ref) && pmentryLeaf (p.entry ref) (level + 1) then
        ((some ref, level + 1), p)
      else
        match pmentryGet p ref allocate with
        | (none, p) => ((none, level + 1), p)
        | (some table, p) => pmentryWalkFrom virt leafLevel allocate level table p
    else ((some ref, level + 1), p)

def pmentryWalk (p : Pmap) (virt : BitVec 64) (leafLevel : Nat) (allocate : Bool) :
    (Option EntryRef × Nat) × Pmap :=
  pmentryWalkFrom virt leafLevel allocate p.numLevels p.root p

def splitLargeNolock (p : Pmap) (ref : EntryRef) (level : Nat) : Except Errno Unit × Pmap :=
  match pslabAllocPhys p with
  | (phys, p) =>
    if phys = 0 then (.error .ENOMEM, p)
    else
      let base := pmentryAddress (p.entry ref) level
      let step := pmentryLevelSize (level - 1)
      let vprot := pmentryVprot (p.entry ref) level
      (.ok (), (p.fill phys fun i =>
        pmentrySetup (base + BitVec.ofNat 64 i.val * step) vprot (level - 1)).write ref
          (pmentryTable phys))

/-- The loop of `pmentry_walk_page_nolock`, for a number of turns. -/
def walkPageLoop (virt : BitVec 64) : Nat → Pmap → Option (Except Errno EntryRef × Pmap)
  | 0, _ => none
  | turns + 1, p =>
    match pmentryWalk p virt 1 false with
    | ((none, _), p) => some (.error .ENOENT, p)
    | ((some ref, level), p) =>
      if pmentryValid (p.entry ref) = false then some (.error .ENOENT, p)
      else if level = 1 then some (.ok ref, p)
      else
        match splitLargeNolock p ref level with
        | (.error e, p) => some (.error e, p)
        | (.ok (), p) => walkPageLoop virt turns p

/-- A walk ends lower after each split, so there are at most as many turns as levels. -/
def pmentryWalkPageNolock (p : Pmap) (virt : BitVec 64) :
    Option (Except Errno EntryRef × Pmap) :=
  walkPageLoop virt p.numLevels p

def pickLeafFrom (virt phys size : BitVec 64) : (level : Nat) → Nat
  | level + 2 =>
    let mask := pmentryLevelSize (level + 2) - 1
    if (virt ||| phys) &&& mask = 0 ∧ size > mask then level + 2
    else pickLeafFrom virt phys size (level + 1)
  | _ => 1

def pickLeafLevel (maxLeafLevel : Nat) (virt phys size : BitVec 64) (vprot : Vprot) : Nat :=
  if vprot &&& VPROT_USER ≠ 0 then 1 else pickLeafFrom virt phys size maxLeafLevel

/-! ## The calls -/

/-- `page_align`. -/
def pageStart (address : BitVec 64) : BitVec 64 := address &&& ~~~(BitVec.ofNat 64 PAGE_SIZE - 1)

/-- The test of the assertions: all the bits below a page are zero. -/
def PageAligned (bits : BitVec 64) : Prop := bits &&& (BitVec.ofNat 64 PAGE_SIZE - 1) = 0

instance (bits : BitVec 64) : Decidable (PageAligned bits) := inferInstanceAs (Decidable (_ = _))

def pmapMap (p : Pmap) (virt phys : BitVec 64) (vprot : Vprot) : Except Errno Unit × Pmap :=
  match pmentryWalk p virt 1 true with
  | ((none, _), p) => (.error .ENOMEM, p)
  | ((some ref, _), p) =>
    if pmentryValid (p.entry ref) then (.error .EEXIST, p)
    else (.ok (), p.write ref (pmentrySetup (pageStart phys) vprot 1))

/-- The loop of `pmap_map_range`, for a number of turns. -/
def mapLoop (maxLeafLevel : Nat) (vprot : Vprot) :
    Nat → (virt phys size : BitVec 64) → Pmap → Option (Except Errno Unit × Pmap)
  | 0, _, _, _, _ => none
  | turns + 1, virt, phys, size, p =>
    if size > 0 then
      let level := pickLeafLevel maxLeafLevel virt phys size vprot
      match pmentryWalk p virt level true with
      | ((none, _), p) => some (.error .ENOMEM, p)
      | ((some ref, _), p) =>
        if pmentryValid (p.entry ref) then some (.error .EEXIST, p)
        else
          let step := pmentryLevelSize level
          mapLoop maxLeafLevel vprot turns (virt + step) (phys + step) (size - step)
            (p.write ref (pmentrySetup phys vprot level))
    else some (.ok (), p)

/-- Each turn maps a page at least; none if the assertion fails. -/
def pmapMapRange (maxLeafLevel : Nat) (p : Pmap) (virt phys size : BitVec 64) (vprot : Vprot) :
    Option (Except Errno Unit × Pmap) :=
  if PageAligned (virt ||| phys ||| size) then
    mapLoop maxLeafLevel vprot (size.toNat / PAGE_SIZE + 1) virt phys size p
  else none

def pmapPatchNoflush (p : Pmap) (virt : BitVec 64) (vprot : Vprot) :
    Option (Except Errno Unit × Pmap) :=
  match pmentryWalkPageNolock p virt with
  | none => none
  | some (.error e, p) => some (.error (if e = .ENOENT then .EINVAL else e), p)
  | some (.ok ref, p) =>
    some (.ok (), p.write ref (pmentrySetup (pmentryAddress (p.entry ref) 1) vprot 1))

def pmapUnmapNoflush (p : Pmap) (virt : BitVec 64) : Option (Except Errno Unit × Pmap) :=
  match pmentryWalkPageNolock p virt with
  | none => none
  | some (.error e, p) => some (.error e, p)
  | some (.ok ref, p) => some (.ok (), p.write ref PMENTRY_NULL)

/-- The loop of `pmap_unmap_range_noflush` up to `last`, for a number of turns. -/
def unmapLoop (last : BitVec 64) :
    Nat → (virt : BitVec 64) → Pmap → Option (Except Errno Unit × Pmap)
  | 0, _, _ => none
  | turns + 1, virt, p =>
    if virt < last then
      match pmentryWalk p virt 1 false with
      | ((none, level), p) =>
        unmapLoop last turns ((virt ||| pmentryLevelSize level - 1) + 1) p
      | ((some ref, level), p) =>
        let mask := pmentryLevelSize level - 1
        if pmentryValid (p.entry ref) = false then unmapLoop last turns ((virt ||| mask) + 1) p
        else if virt &&& mask = 0 ∧ last - virt > mask then
          unmapLoop last turns (virt + (mask + 1)) (p.write ref PMENTRY_NULL)
        else
          match splitLargeNolock p ref level with
          | (.error e, p) => some (.error e, p)
          | (.ok (), p) => unmapLoop last turns virt p
    else some (.ok (), p)

/-- A page takes one turn, after a split for every level above the last; none if the assertion
fails or the loop still goes on. -/
def pmapUnmapRangeNoflush (p : Pmap) (virt size : BitVec 64) :
    Option (Except Errno Unit × Pmap) :=
  if PageAligned (virt ||| size) then
    unmapLoop (virt + size) ((p.numLevels + 1) * (size.toNat / PAGE_SIZE + 1)) virt p
  else none

def pmapResolveAddress (p : Pmap) (virt : BitVec 64) : BitVec 64 :=
  match pmentryWalk p virt 1 false with
  | ((none, _), _) => 0
  | ((some ref, level), p) =>
    if pmentryValid (p.entry ref) then
      pmentryAddress (p.entry ref) level + (virt &&& (pmentryLevelSize level - 1))
    else 0

def pmapResolveVprot (p : Pmap) (virt : BitVec 64) : Vprot :=
  match pmentryWalk p virt 1 false with
  | ((none, _), _) => 0
  | ((some ref, level), p) =>
    if pmentryValid (p.entry ref) then pmentryVprot (p.entry ref) level else 0

end Vex.Mm.PageTables
