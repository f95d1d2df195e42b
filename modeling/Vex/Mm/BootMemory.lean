import Vex.Libk.Bitmap
import Vex.Mm.Kmalloc

/-! How memory is handed out at boot: `init_pdma`, `init_pframe` and `init_pslab`, which run in
this order over the memory map of the bootloader. Physical memory is known by addresses; the list
of the page allocator, which runs through the pages themselves, is a list of them. -/

namespace Vex.Mm.BootMemory

open Libk
open Kmalloc (SIZE_RANGE alignCeil pageCount)

/-- Differences of `size_t`. -/
def subSize (a b : Nat) : Nat := (a + (SIZE_RANGE - b)) % SIZE_RANGE

/-! ## The memory map -/

abbrev LIMINE_MEMMAP_USABLE : Nat := 0

structure MemmapEntry where
  base : Nat
  length : Nat
  type : Nat

abbrev PDMA_APPROX_END : Nat := 0xFFFFFF

/-- The first page of memory is never used. -/
def skipPageZero (start length : Nat) : Nat × Nat :=
  if start = 0 then (PAGE_SIZE, subSize length PAGE_SIZE) else (start, length)

structure MemmapInfo where
  start : Nat
  endAddress : Nat
  length : Nat
  npages : Nat

def infoOf (range : Nat × Nat) : MemmapInfo where
  start := range.1
  endAddress := subSize ((range.1 + range.2) % SIZE_RANGE) 1
  length := range.2
  npages := pageCount range.2

def getMemmapInfo (entry : MemmapEntry) : MemmapInfo :=
  infoOf (skipPageZero (alignCeil entry.base PAGE_SIZE) (pageAlign entry.length))

/-! ## The DMA allocator -/

structure Pdma where
  bitmap : Bitmap
  bitmapPhys : Nat
  bitmapSize : Nat
  numpages : Nat

/-- `add_region`. The pages of a range past the end of the storage of the bitmap are no pages at
all: setting their bits stores through all of memory, and does not return. -/
def addRegion (p : Pdma) (start length : Nat) : Option Pdma :=
  let page := start / PAGE_SIZE
  let last := subSize ((page + pageCount length) % SIZE_RANGE) 1
  if last / BITMAP_CHUNK_BITS * 4 < p.bitmapSize then
    some { p with bitmap := bitmapRangeSet p.bitmap page last }
  else none

/-- The part of a range that the DMA allocator is for. -/
def clip (info : MemmapInfo) : MemmapInfo :=
  if info.endAddress ≥ PDMA_APPROX_END then
    { info with
      endAddress := PDMA_APPROX_END
      length := (subSize PDMA_APPROX_END info.start + 1) % SIZE_RANGE }
  else info

/-- The turn of the first loop of `init_pdma`: how many pages the bitmap is for. -/
def coverEntry (npages : Nat) (entry : MemmapEntry) : Nat :=
  if entry.type = LIMINE_MEMMAP_USABLE ∧ (getMemmapInfo entry).start < PDMA_APPROX_END then
    max npages ((clip (getMemmapInfo entry)).endAddress / PAGE_SIZE + 1)
  else npages

def bitmapBytecount (bits : Nat) : Nat := alignCeil bits BITMAP_CHUNK_BITS / 8

/-- The second loop takes the first entry with room for the bitmap. -/
def holdsBitmap (bitmapNpages : Nat) (entry : MemmapEntry) : Bool :=
  let info := getMemmapInfo entry
  decide (entry.type = LIMINE_MEMMAP_USABLE ∧ info.npages ≥ bitmapNpages ∧
    (info.start + bitmapNpages * PAGE_SIZE) % SIZE_RANGE ≤ PDMA_APPROX_END)

/-- The range of an entry without the bitmap, as a start and a length. -/
def withoutBitmap (p : Pdma) (info : MemmapInfo) : Nat × Nat :=
  if info.start = p.bitmapPhys then
    ((info.start + p.bitmapSize) % SIZE_RANGE, subSize info.length p.bitmapSize)
  else (info.start, info.length)

/-- The turn of the third loop. -/
def addEntry (p : Pdma) (entry : MemmapEntry) : Option Pdma :=
  let info := getMemmapInfo entry
  if entry.type = LIMINE_MEMMAP_USABLE ∧ info.start < PDMA_APPROX_END then
    let range := withoutBitmap p (clip info)
    if range.2 > 0 then addRegion p range.1 range.2 else some p
  else some p

/-- `init_pdma`, with what the storage of the bitmap holds before; none on a panic. -/
def initPdma (entries : List MemmapEntry) (memory : Bitmap) : Option Pdma :=
  let numpages := alignCeil (entries.foldl coverEntry 0) BITMAP_CHUNK_BITS
  let bitmapNpages := pageCount (bitmapBytecount numpages)
  match entries.find? (holdsBitmap bitmapNpages) with
  | none => none
  | some entry =>
    let p : Pdma :=
      { bitmap := memory
        bitmapPhys := (getMemmapInfo entry).start
        bitmapSize := bitmapNpages * PAGE_SIZE
        numpages := numpages }
    (addRegion p p.bitmapPhys p.bitmapSize).bind fun p =>
      entries.foldlM addEntry
        { p with bitmap := bitmapRangeClear p.bitmap 0 (subSize numpages 1) }

/-! ## The frame table -/

/-- The size of `pframe_t`. -/
abbrev SIZEOF_PFRAME : Nat := 48

structure Pframes where
  numPframes : Nat
  storageStart : Nat
  storageLength : Nat
  /-- The flag `PFRAME_PSLAB` of each frame. -/
  pslab : Nat → Bool

/-- `pframe_of`, the index of the frame; none if the assertion fails. -/
def pframeOf (f : Pframes) (phys : Nat) : Option Nat :=
  if phys / PAGE_SIZE < f.numPframes then some (phys / PAGE_SIZE) else none

def MemmapEntry.endAligned (entry : MemmapEntry) : Nat :=
  pageAlign ((entry.base + entry.length) % SIZE_RANGE)

/-- The turn of the first loop of `init_pframe`. -/
def raiseEnd (usableEnd : Nat) (entry : MemmapEntry) : Nat :=
  if entry.type = LIMINE_MEMMAP_USABLE ∧ entry.endAligned > usableEnd then entry.endAligned
  else usableEnd

/-- Where the frame table would start in an entry: above the DMA zone. -/
def storageStartIn (entry : MemmapEntry) : Nat :=
  let start := alignCeil entry.base PAGE_SIZE
  if start ≤ PDMA_APPROX_END then PDMA_APPROX_END + 1 else start

def holdsFrames (storageLength : Nat) (entry : MemmapEntry) : Bool :=
  decide (entry.type = LIMINE_MEMMAP_USABLE ∧ entry.endAligned > storageStartIn entry ∧
    entry.endAligned - storageStartIn entry ≥ storageLength)

/-- `init_pframe`; none on a panic. -/
def initPframe (entries : List MemmapEntry) : Option Pframes :=
  let numPframes := entries.foldl raiseEnd 0 / PAGE_SIZE
  let storageLength := alignCeil (numPframes * SIZEOF_PFRAME) PAGE_SIZE
  (entries.find? (holdsFrames storageLength)).map fun entry =>
    { numPframes := numPframes
      storageStart := storageStartIn entry
      storageLength := storageLength
      pslab := fun _ => false }

/-! ## The page allocator -/

structure Pslab where
  list : List Nat
  numpages : Nat
  frames : Pframes

/-- The loop of `pslab_add_region`, with `turns` pages to go. -/
def addPages (start : Nat) : (turns offset : Nat) → Pslab → Option Pslab
  | 0, _, s => some s
  | turns + 1, offset, s =>
    (pframeOf s.frames (start + offset)).bind fun pframe =>
      addPages start turns (offset + PAGE_SIZE)
        { list := (start + offset) :: s.list
          numpages := s.numpages + 1
          frames := { s.frames with pslab := Function.update s.frames.pslab pframe true } }

def pslabAddRegion (s : Pslab) (start length : Nat) : Option Pslab :=
  addPages start ((length + (PAGE_SIZE - 1)) / PAGE_SIZE) 0 s

/-- `pslab_add_usable`: what is left of a range without the frame table. -/
def pslabAddUsable (s : Pslab) (start length : Nat) : Option Pslab :=
  let reservedStart := s.frames.storageStart
  let endAddress := (start + length) % SIZE_RANGE
  let reservedEnd := (reservedStart + s.frames.storageLength) % SIZE_RANGE
  if reservedEnd ≤ start ∨ reservedStart ≥ endAddress then pslabAddRegion s start length
  else
    (if reservedStart > start then pslabAddRegion s start (reservedStart - start)
      else some s).bind fun s =>
      if reservedEnd < endAddress then pslabAddRegion s reservedEnd (endAddress - reservedEnd)
      else some s

/-- The part of a range above the DMA zone. -/
def aboveDma (range : Nat × Nat) : Nat × Nat :=
  if range.1 < PDMA_APPROX_END then
    (PDMA_APPROX_END + 1, subSize range.2 (PDMA_APPROX_END + 1 - range.1))
  else range

/-- The turn of the loop of `init_pslab`. -/
def pslabAddEntry (s : Pslab) (entry : MemmapEntry) : Option Pslab :=
  let range := skipPageZero (alignCeil entry.base PAGE_SIZE) (pageAlign entry.length)
  if entry.type = LIMINE_MEMMAP_USABLE ∧ (range.1 + range.2) % SIZE_RANGE > PDMA_APPROX_END then
    let above := aboveDma range
    if above.2 > 0 then pslabAddUsable s above.1 above.2 else some s
  else some s

def initPslab (entries : List MemmapEntry) (frames : Pframes) : Option Pslab :=
  entries.foldlM pslabAddEntry { list := [], numpages := 0, frames := frames }

/-! ## Boot -/

structure Boot where
  pdma : Pdma
  pslab : Pslab

/-- The initializers in their order; none if one of them panics. -/
def boot (entries : List MemmapEntry) (memory : Bitmap) : Option Boot :=
  (initPdma entries memory).bind fun pdma =>
    (initPframe entries).bind fun frames =>
      (initPslab entries frames).map fun pslab => { pdma := pdma, pslab := pslab }

inductive Owner
  /-- The storage of the bitmap of the DMA allocator. -/
  | bitmap
  /-- The free pages of the DMA allocator. -/
  | dma
  /-- The storage of the frame table. -/
  | frames
  /-- The free list of the page allocator. -/
  | list

/-- Who owns a page, by its number. -/
def Boot.Owns (b : Boot) (page : Nat) : Owner → Prop
  | .bitmap => b.pdma.bitmapPhys ≤ page * PAGE_SIZE ∧
      page * PAGE_SIZE < b.pdma.bitmapPhys + b.pdma.bitmapSize
  | .dma => page < b.pdma.numpages ∧ bitmapIsset b.pdma.bitmap page = true
  | .frames => b.pslab.frames.storageStart ≤ page * PAGE_SIZE ∧
      page * PAGE_SIZE < b.pslab.frames.storageStart + b.pslab.frames.storageLength
  | .list => page * PAGE_SIZE ∈ b.pslab.list

/-- The page is in a usable entry of the map. -/
def Usable (entries : List MemmapEntry) (page : Nat) : Prop :=
  ∃ e ∈ entries, e.type = LIMINE_MEMMAP_USABLE ∧ e.base ≤ page * PAGE_SIZE ∧
    page * PAGE_SIZE < e.base + e.length

/-- A range of whole pages. Physical addresses have 52 bits, so that the end of a range is an
address as well. -/
structure MemmapEntry.Pages (e : MemmapEntry) : Prop where
  nonempty : 0 < e.length
  base : e.base % PAGE_SIZE = 0
  length : e.length % PAGE_SIZE = 0
  range : e.base + e.length < SIZE_RANGE

/-- What the bootloader guarantees: usable entries are whole pages, and no two of them meet. The
entries are sorted as well, on which nothing depends. -/
structure WellFormed (entries : List MemmapEntry) : Prop where
  pages : ∀ e ∈ entries, e.type = LIMINE_MEMMAP_USABLE → e.Pages
  disjoint : entries.Pairwise fun e e' => e.type = LIMINE_MEMMAP_USABLE →
    e'.type = LIMINE_MEMMAP_USABLE → e.base + e.length ≤ e'.base ∨ e'.base + e'.length ≤ e.base

end Vex.Mm.BootMemory
