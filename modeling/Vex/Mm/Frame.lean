import Vex.Errno
import Vex.Mm.Page

/-! Page frames and page tables: `mm/pslab.c`, `mm/pframe.c`, `mm/pmap.c` and `mm/rmap.c`, as far
as user pages go.

A frame is its number, so frame zero is the physical address zero, which `pslab` never manages
and which stands for "none". A `Slot` is what an `rmap_entry_t` records: a page table (named by
its address space) and a page address. The page table is the function of the slot that its
level 1 entries make up, with the set of level 1 tables that exist, since a walk that allocates
fails only where one is missing. Every allocation takes the next answer of `supply`: a page
frame is handed out only when nothing holds it, which `take_page` asserts. The frames that page
tables are in are not recorded. The locks are left out, as are TLB flushes. -/

namespace Vex.Mm

open Function

/-- A page of an address space: the space and the page address. -/
abbrev Slot := Nat × Nat

/-- A level 1 page table entry, as `pmentry_setup` makes it. -/
structure Pmentry where
  frame : Nat
  vprot : Vprot
  deriving DecidableEq

/-- `pframe_t`; `cache` is `PFRAME_CACHE`, and the other file cache fields are left out. -/
structure Pframe where
  refcount : Nat
  cache : Bool
  mappings : List Slot
  deriving DecidableEq

/-- What the page-level functions share. -/
structure Pages where
  pmaps : Slot → Option Pmentry
  tables : Nat × Nat → Bool
  /-- The frames handed out for pages. -/
  frames : Nat → Pframe
  data : Nat → Nat → UInt8
  supply : List (Option Nat)

namespace Pages

/-- What the next allocation gets. -/
def answer (p : Pages) : Option Nat := p.supply.head?.join

/-- The pages once an allocation took its answer. -/
def spent (p : Pages) : Pages := { p with supply := p.supply.tail }

def setFrame (p : Pages) (f : Nat) (pframe : Pframe) : Pages :=
  { p with frames := update p.frames f pframe }

def setEntry (p : Pages) (slot : Slot) (entry : Option Pmentry) : Pages :=
  { p with pmaps := update p.pmaps slot entry }

def setData (p : Pages) (f : Nat) (bytes : Nat → UInt8) : Pages :=
  { p with data := update p.data f bytes }

end Pages

/-! ## Page frames -/

def pslabAllocPhys (p : Pages) : Option Nat × Pages :=
  match p.answer with
  | some f =>
    if f ≠ 0 ∧ (p.frames f).refcount = 0 then
      (some f, p.spent.setFrame f { p.frames f with refcount := 1 })
    else (none, p.spent)
  | none => (none, p.spent)

def pslabFreePhys (p : Pages) (f : Nat) : Pages :=
  if f = 0 then p else p.setFrame f { p.frames f with refcount := 0 }

def pframeIncref (p : Pages) (f : Nat) : Pages :=
  p.setFrame f { p.frames f with refcount := (p.frames f).refcount + 1 }

/-- `pframe_decref`: whether the caller held the last reference, which it then still holds. -/
def pframeDecref (p : Pages) (f : Nat) : Bool × Pages :=
  if (p.frames f).refcount > 1 then
    (false, p.setFrame f { p.frames f with refcount := (p.frames f).refcount - 1 })
  else (true, p)

def pframeShared (p : Pages) (f : Nat) : Bool := (p.frames f).refcount > 1

def putFrame (p : Pages) (f : Nat) : Pages :=
  match pframeDecref p f with
  | (true, p) => pslabFreePhys p f
  | (false, p) => p

/-! ## Page tables -/

/-- The level 1 table that holds the entry of a slot. -/
def tableOf (slot : Slot) : Nat × Nat := (slot.1, slot.2 / (512 * PAGE_SIZE))

/-- `pmap_resolve_address`, for a page address; a result of zero is `none`. -/
def pmapResolveAddress (p : Pages) (slot : Slot) : Option Nat :=
  (p.pmaps slot).bind fun entry => if entry.frame = 0 then none else some entry.frame

/-- `pmap_resolve_vprot`: the rights the entry keeps, which always include reading. -/
def pmapResolveVprot (p : Pages) (slot : Slot) : Vprot :=
  match p.pmaps slot with
  | some entry => VPROT_READ |||
      (entry.vprot &&& (VPROT_WRITE ||| VPROT_EXEC ||| VPROT_USER ||| VPROT_CACHE_MASK))
  | none => 0

/-- `pmentry_walk` with `allocate`: whether the level 1 table exists afterwards. -/
def pmentryWalk (p : Pages) (slot : Slot) : Bool × Pages :=
  if p.tables (tableOf slot) then (true, p)
  else if p.answer.isSome then
    (true, { p.spent with tables := update p.tables (tableOf slot) true })
  else (false, p.spent)

def pmapMap (p : Pages) (slot : Slot) (f : Nat) (vprot : Vprot) : Except Errno Unit × Pages :=
  match pmentryWalk p slot with
  | (false, p) => (.error .ENOMEM, p)
  | (true, p) =>
    if (p.pmaps slot).isSome then (.error .EEXIST, p)
    else (.ok (), p.setEntry slot (some ⟨f, vprot⟩))

/-- `pmap_patch_noflush`. User pages are never mapped large, so nothing is split. -/
def pmapPatchNoflush (p : Pages) (slot : Slot) (vprot : Vprot) : Except Errno Unit × Pages :=
  match p.pmaps slot with
  | none => (.error .EINVAL, p)
  | some entry => (.ok (), p.setEntry slot (some { entry with vprot := vprot }))

def pmapUnmapNoflush (p : Pages) (slot : Slot) : Except Errno Unit × Pages :=
  match p.pmaps slot with
  | none => (.error .ENOENT, p)
  | some _ => (.ok (), p.setEntry slot none)

/-! ## Reverse mappings -/

def soleMappingLocked (pframe : Pframe) : Bool :=
  match pframe.mappings with
  | [_] => !pframe.cache
  | _ => false

/-- `pframe->mappings` of a frame changed. -/
def Pages.setMappings (p : Pages) (f : Nat) (mappings : List Slot) : Pages :=
  p.setFrame f { p.frames f with mappings := mappings }

/-- `unlink_entry`, when the frame has an entry of the slot. -/
def unlinkEntry (p : Pages) (f : Nat) (slot : Slot) : Option Pages :=
  if slot ∈ (p.frames f).mappings then
    some (p.setMappings f ((p.frames f).mappings.erase slot))
  else none

def rmapMap (p : Pages) (slot : Slot) (f : Nat) (vprot : Vprot) : Except Errno Unit × Pages :=
  if p.answer.isNone then (.error .ENOMEM, p.spent)
  else
    match pmapMap p.spent slot f vprot with
    | (.error err, p) => (.error err, p)
    | (.ok _, p) => (.ok (), p.setMappings f (slot :: (p.frames f).mappings))

/-- `rmap_unmap`: the frame that was mapped. -/
def rmapUnmap (p : Pages) (slot : Slot) : Option Nat × Pages :=
  match pmapResolveAddress p slot with
  | none => (none, p)
  | some f =>
    match unlinkEntry p f slot with
    | none => (none, p)
    | some p => (some f, (pmapUnmapNoflush p slot).2)

def rmapReplace (p : Pages) (slot : Slot) (oldPhys newPhys : Nat) (vprot : Vprot) :
    Except Errno Unit × Pages :=
  match unlinkEntry p oldPhys slot with
  | none => (.error .EAGAIN, p)
  | some p =>
    let p := (pmapMap (pmapUnmapNoflush p slot).2 slot newPhys vprot).2
    (.ok (), p.setMappings newPhys (slot :: (p.frames newPhys).mappings))

/-- `rmap_pin`: the frame, pinned, and `sole`. -/
def rmapPin (p : Pages) (slot : Slot) : Option (Nat × Bool) × Pages :=
  match pmapResolveAddress p slot with
  | none => (none, p)
  | some f => (some (f, soleMappingLocked (p.frames f)), pframeIncref p f)

end Vex.Mm
