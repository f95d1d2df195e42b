import Vex.Lib.Chain
import Vex.Mm.Page

/-! The kernel heap: `mm/kmalloc.c`. Block headers are in slab memory under pointers, sizes and
addresses are numbers below 2^64 with the wrapping of `size_t` written out. The lock is left out:
each call is one step. -/

namespace Vex.Mm.Kmalloc

open Function

/-! ## Sizes -/

/-- The values of `size_t`. -/
abbrev SIZE_RANGE : Nat := 2 ^ 64

/-- `align_ceil`, which wraps, for a power of two. -/
def alignCeil (x align : Nat) : Nat := (x + (align - 1)) % SIZE_RANGE / align * align

def pageCount (size : Nat) : Nat := alignCeil size PAGE_SIZE / PAGE_SIZE

abbrev MALLOC_ALIGNMENT : Nat := 8

abbrev HEAP_REGION_BASE : Nat := 0xFFFFFE8000000000
abbrev HEAP_REGION_SIZE : Nat := 0x0000008000000000

/-! ## Blocks -/

/-- `memblock_t`; `used` is the type `BLOCK_TYPE_USED`, the other one is `BLOCK_TYPE_FREE`. -/
structure Memblock where
  prev : Option Nat
  next : Option Nat
  used : Bool
  address : Nat
  length : Nat

structure Heap where
  head : Option Nat
  tail : Option Nat
  heapEnd : Nat
  /-- The slab memory of the block headers. -/
  blocks : Nat → Option Memblock
  /-- The pages of the heap region that are mapped, by number. -/
  mapped : Nat → Bool
  /-- The bytes of the heap region, and what pages mapped later will hold. -/
  bytes : Nat → UInt8

/-- The heap at boot. -/
def heapInit (bytes : Nat → UInt8) : Heap where
  head := none
  tail := none
  heapEnd := HEAP_REGION_BASE
  blocks := fun _ => none
  mapped := fun _ => false
  bytes := bytes

/-- The answers of the allocators below: `slab_alloc`, and `pslab_alloc_phys` with `pmap_map` for
one page after the other. -/
structure Supply where
  slab : List (Option Nat)
  pages : List Bool

namespace Heap

/-- Stores to the fields of a block. -/
def modify (h : Heap) (block : Nat) (f : Memblock → Memblock) : Heap :=
  { h with blocks := update h.blocks block ((h.blocks block).map f) }

/-- Stores to the fields of the block a link leads to, or to `tail` where it ends. -/
def setPrevOf (h : Heap) (link : Option Nat) (block : Nat) : Heap :=
  match link with
  | some next => h.modify next ({ · with prev := some block })
  | none => { h with tail := some block }

/-- The links to a new last block. -/
def linkLast (h : Heap) (block : Nat) : Heap :=
  match h.tail with
  | some tail => { h.modify tail ({ · with next := some block }) with tail := some block }
  | none => { h with head := some block, tail := some block }

def slabFree (h : Heap) (block : Nat) : Heap :=
  { h with blocks := update h.blocks block none }

end Heap

/-- `slab_alloc`, which returns no block that is in use. -/
def slabAlloc (h : Heap) (supply : Supply) : Option Nat × Supply :=
  match supply.slab with
  | [] => (none, supply)
  | answer :: slab => (answer.filter fun p => (h.blocks p).isNone, { supply with slab := slab })

/-- The loops over the list, which is not longer than the heap. -/
def seekBlock (h : Heap) (found : Memblock → Bool) : Option (Option Nat) :=
  Lib.seek Memblock.next h.blocks found (h.heapEnd - HEAP_REGION_BASE) h.head

def findFreeBlock (h : Heap) (size : Nat) : Option (Option Nat) :=
  seekBlock h fun block => !block.used && decide (block.length ≥ size)

def findBlockAt (h : Heap) (address : Nat) : Option (Option Nat) :=
  seekBlock h fun block => block.address == address

/-- The end of `extend_heap` on an error, for the pages mapped so far. -/
def unmapPages (first : Nat) : Nat → (Nat → Bool) → Nat → Bool
  | 0, mapped => mapped
  | i + 1, mapped => unmapPages first i (update mapped (first + i) false)

/-- The loop of `extend_heap`, with `left` pages to go. -/
def mapPages (first : Nat) :
    (i left : Nat) → List Bool → (Nat → Bool) → Bool × (Nat → Bool) × List Bool
  | _, 0, answers, mapped => (true, mapped, answers)
  | i, left + 1, answers, mapped =>
    if answers.head? = some true ∧ mapped (first + i) = false then
      mapPages first (i + 1) left answers.tail (update mapped (first + i) true)
    else (false, unmapPages first i mapped, answers.tail)

def extendHeap (h : Heap) (size : Nat) (supply : Supply) : Option Nat × Heap × Supply :=
  let npages := pageCount size
  if npages > (HEAP_REGION_BASE + HEAP_REGION_SIZE - h.heapEnd) / PAGE_SIZE then (none, h, supply)
  else
    match slabAlloc h supply with
    | (none, supply) => (none, h, supply)
    | (some block, supply) =>
      match mapPages (h.heapEnd / PAGE_SIZE) 0 npages supply.pages h.mapped with
      | (false, mapped, pages) =>
        (none, { h with mapped := mapped }, { supply with pages := pages })
      | (true, mapped, pages) =>
        let new : Memblock :=
          { prev := h.tail
            next := none
            used := false
            address := h.heapEnd
            length := npages * PAGE_SIZE }
        let h := { h with
          blocks := update h.blocks block (some new)
          mapped := mapped
          heapEnd := h.heapEnd + npages * PAGE_SIZE }
        (some block, h.linkLast block, { supply with pages := pages })

def splitBlock (h : Heap) (block size : Nat) (supply : Supply) : Option Heap :=
  match h.blocks block with
  | none => none
  | some b =>
    let aligned := alignCeil size MALLOC_ALIGNMENT
    let remainder := (b.length + SIZE_RANGE - aligned) % SIZE_RANGE
    if remainder < 4 * 8 then some h
    else
      match slabAlloc h supply with
      | (none, _) => some h
      | (some new, _) =>
        let rest : Memblock :=
          { prev := some block
            next := b.next
            used := false
            address := (b.address + aligned) % SIZE_RANGE
            length := remainder }
        let h := { h with blocks := update h.blocks new (some rest) }
        let h := h.setPrevOf b.next new
        some (h.modify block ({ · with next := some new, length := aligned }))

/-- The first half of `coalesce`: the next block is merged into this one. -/
def coalesceNext (h : Heap) (block : Nat) : Option Heap :=
  match h.blocks block with
  | none => none
  | some b =>
    match b.next with
    | none => some h
    | some next =>
      match h.blocks next with
      | none => none
      | some n =>
        if n.used then some h
        else
          let h := h.modify block fun b =>
            { b with length := (b.length + n.length) % SIZE_RANGE, next := n.next }
          some ((h.setPrevOf n.next block).slabFree next)

/-- The second half: this block is merged into the one before. -/
def coalescePrev (h : Heap) (block : Nat) : Option Heap :=
  match h.blocks block with
  | none => none
  | some b =>
    match b.prev with
    | none => some h
    | some prev =>
      match h.blocks prev with
      | none => none
      | some q =>
        if q.used then some h
        else
          let h := h.modify prev fun q =>
            { q with length := (q.length + b.length) % SIZE_RANGE, next := b.next }
          some ((h.setPrevOf b.next prev).slabFree block)

def coalesce (h : Heap) (block : Nat) : Option Heap :=
  (coalesceNext h block).bind fun h => coalescePrev h block

/-! ## Memory -/

/-- The addresses are mapped. -/
def Mapped (h : Heap) (address size : Nat) : Prop :=
  ∀ i < (address + size + (PAGE_SIZE - 1)) / PAGE_SIZE - address / PAGE_SIZE,
    h.mapped (address / PAGE_SIZE + i) = true

instance (h : Heap) (address size : Nat) : Decidable (Mapped h address size) :=
  inferInstanceAs (Decidable (∀ i < _, _))

/-- `memset` to zero; none on a fault. -/
def memsetZero (h : Heap) (address size : Nat) : Option Heap :=
  if Mapped h address size then
    some { h with bytes := fun a =>
      if address ≤ a ∧ a < address + size then 0 else h.bytes a }
  else none

/-- `memcpy`; none on a fault. -/
def memcpy (h : Heap) (dest source size : Nat) : Option Heap :=
  if Mapped h dest size ∧ Mapped h source size then
    some { h with bytes := fun a =>
      if dest ≤ a ∧ a < dest + size then h.bytes (source + (a - dest)) else h.bytes a }
  else none

/-! ## The calls -/

/-- The end of `kmalloc`, with a block that is long enough. -/
def useBlock (h : Heap) (block size aligned : Nat) (supply : Supply) :
    Option (Option Nat × Heap) :=
  (splitBlock h block aligned supply).bind fun h =>
    let h := h.modify block ({ · with used := true })
    (h.blocks block).bind fun b =>
      (memsetZero h b.address size).map fun h => (some b.address, h)

/-- `kmalloc`; none if it does not return. -/
def kmalloc (h : Heap) (size : Nat) (supply : Supply) : Option (Option Nat × Heap) :=
  if size = 0 then some (none, h)
  else
    let aligned := alignCeil size MALLOC_ALIGNMENT
    (findFreeBlock h aligned).bind fun
      | some block => useBlock h block size aligned supply
      | none =>
        match extendHeap h aligned supply with
        | (none, h, _) => some (none, h)
        | (some block, h, supply) => useBlock h block size aligned supply

/-- `kfree`; none on a panic. -/
def kfree (h : Heap) : Option Nat → Option Heap
  | none => some h
  | some ptr =>
    (findBlockAt h ptr).bind fun
      | none => none
      | some block => (h.blocks block).bind fun b =>
        if b.used then coalesce (h.modify block ({ · with used := false })) block else none

def krealloc (h : Heap) (ptr : Option Nat) (size : Nat) (supply : Supply) :
    Option (Option Nat × Heap) :=
  match ptr with
  | none => kmalloc h size supply
  | some ptr =>
    if size = 0 then (kfree h (some ptr)).map fun h => (none, h)
    else
      let aligned := alignCeil size MALLOC_ALIGNMENT
      (findBlockAt h ptr).bind fun
        | none => some (none, h)
        | some block => (h.blocks block).bind fun b =>
          if b.length ≥ aligned then some (some ptr, h)
          else (kmalloc h aligned supply).bind fun
            | (none, h) => some (none, h)
            | (some new, h) => (memcpy h new ptr b.length).bind fun h =>
              (kfree h (some ptr)).map fun h => (some new, h)

end Vex.Mm.Kmalloc
