import Vex.Errno
import Vex.Lib.Overlay
import Vex.Lib.Table
import Vex.Mm.Page

/-! The file cache of one vnode: `fcache.c`.

The radix tree is a table of pages in index order. What the cache does not decide itself comes
from the list `luck`, one `Chance` for each time the rest of the kernel is asked: whether an
allocation, a block map request or a device request succeeds, which pages of this vnode
`fcache_reclaim` visits while `get_page` has dropped the cache lock to allocate, and what
`over_dirty_limit` answers. Positions are natural numbers; an `off_t` never reaches the point
where the `uint64_t` arithmetic of the source would wrap. -/

namespace Vex.Fs

open Lib Mm

abbrev GATHER_BATCH : Nat := 16

structure FcacheExtent where
  lba : Nat
  count : Nat
  mapped : Bool
  deriving DecidableEq, Repr

/-- What the cache uses of a vnode and its file system: the sector size of the volume, the
`fcache_bmap_t` that places the sectors of the file, and whether the mount is read-only. -/
structure Vnode where
  sectorSize : Nat
  bmap : Nat → Bool → Except Errno FcacheExtent
  readonly : Bool

/-- A page frame of the cache. `sectors` are the bits of `flags` from `PFRAME_DIRTY_SHIFT` on:
eight of them. `mappings` counts the references besides the cache's own. -/
structure CachePage where
  data : Nat → UInt8
  uptodate : Bool
  accessed : Bool
  dirty : Bool
  sectors : BitVec 8
  mappings : Nat

structure Chance where
  ok : Bool
  visits : List Nat
  overLimit : Bool
  deriving DecidableEq, Repr

/-- `fcache_t` of a vnode, with the volume below it: byte `o` of sector `lba` is `disk lba o`. -/
structure Fcache where
  tree : Table CachePage
  numDirty : Nat
  queued : Bool
  disk : Nat → Nat → UInt8
  luck : List Chance

namespace Fcache

def chance (c : Fcache) : Chance := c.luck.headD ⟨true, [], false⟩

def spend (c : Fcache) : Fcache := { c with luck := c.luck.tail }

def modify (c : Fcache) (index : Nat) (f : CachePage → CachePage) : Fcache :=
  { c with tree := c.tree.modify index f }

/-- `fcache_init`. -/
def init (disk : Nat → Nat → UInt8) (luck : List Chance) : Fcache :=
  ⟨.empty, 0, false, disk, luck⟩

end Fcache

/-- `add_page` starts from a zeroed frame without flags. -/
def CachePage.blank : CachePage := ⟨fun _ => 0, false, false, false, 0, 0⟩

def validBytes (index size : Nat) : Nat :=
  let start := index * PAGE_SIZE
  if size ≤ start then 0
  else if size - start ≥ PAGE_SIZE then PAGE_SIZE
  else size - start

/-! ## Dirty pages -/

/-- `mark_dirty`; `sectors << PFRAME_DIRTY_SHIFT` keeps the lowest eight bits of `sectors`.
`queue_dirty` leaves a vnode that is queued already where it is. -/
def markDirty (c : Fcache) (index : Nat) (sectors : BitVec 32) : Fcache :=
  match c.tree.get index with
  | none => c
  | some pg =>
    let c := c.modify index fun pg => { pg with sectors := pg.sectors ||| sectors.setWidth 8 }
    if pg.dirty then c
    else
      { c.modify index fun pg => { pg with dirty := true } with
        numDirty := c.numDirty + 1
        queued := true }

def markClean (c : Fcache) (index : Nat) : Fcache :=
  match c.tree.get index with
  | none => c
  | some pg =>
    if pg.dirty then
      { c.modify index fun pg => { pg with dirty := false, sectors := 0 } with
        numDirty := c.numDirty - 1 }
    else c

def removePage (c : Fcache) (index : Nat) : Fcache :=
  let c := markClean c index
  { c with tree := c.tree.erase index }

/-! ## Pages coming and going -/

/-- One turn of the loop of `fcache_reclaim`, at a page whose cache lock is free. -/
def reclaimVisit (c : Fcache) (index : Nat) : Fcache :=
  match c.tree.get index with
  | none => c
  | some pg =>
    if pg.accessed then c.modify index fun pg => { pg with accessed := false }
    else if pg.dirty || pg.mappings > 0 then c
    else { c with tree := c.tree.erase index }

/-- `fcache_reclaim`, as this vnode sees it: the visits to its own pages, in the order in which
they come up in the queue all vnodes share. -/
def fcacheReclaim (c : Fcache) (visits : List Nat) : Fcache := visits.foldl reclaimVisit c

/-- `get_page`: whether the page is there. -/
def getPage (c : Fcache) (index : Nat) : Bool × Fcache :=
  if (c.tree.get index).isSome then (true, c)
  else
    let ok := c.chance.ok
    let c := (fcacheReclaim c c.chance.visits).spend
    if !ok then (false, c)
    else if (c.tree.get index).isSome then (true, c)
    else (true, { c with tree := c.tree.put index .blank })

/-! ## Sectors -/

def sectorSizeValid (node : Vnode) : Bool :=
  node.sectorSize ≠ 0 && node.sectorSize ≤ PAGE_SIZE && PAGE_SIZE % node.sectorSize = 0

def sectorSpan (node : Vnode) (inPage length : Nat) : BitVec 32 :=
  let first := inPage / node.sectorSize
  let last := (inPage + length - 1) / node.sectorSize
  ((2#32 <<< last) - 1) &&& ~~~((1#32 <<< first) - 1)

def askBmap (node : Vnode) (c : Fcache) (sector : Nat) (create : Bool) :
    Except Errno FcacheExtent × Fcache :=
  if c.chance.ok then (node.bmap sector create, c.spend) else (.error Errno.EIO, c.spend)

/-- `block_read` into the page bytes from `pos` on. -/
def blockRead (node : Vnode) (c : Fcache) (lba count pos : Nat) (data : Nat → UInt8) :
    Except Errno (Nat → UInt8) × Fcache :=
  if c.chance.ok then
    (.ok fun o =>
      if pos ≤ o ∧ o < pos + count * node.sectorSize then
        c.disk (lba + (o - pos) / node.sectorSize) ((o - pos) % node.sectorSize)
      else data o,
      c.spend)
  else (.error Errno.EIO, c.spend)

/-- `block_write` of the page bytes from `pos` on. -/
def blockWrite (node : Vnode) (c : Fcache) (lba count pos : Nat) (data : Nat → UInt8) :
    Except Errno Unit × Fcache :=
  if c.chance.ok then
    (.ok (), { c.spend with
      disk := fun l o =>
        if lba ≤ l ∧ l < lba + count then data (pos + (l - lba) * node.sectorSize + o)
        else c.disk l o })
  else (.error Errno.EIO, c.spend)

def numSectors (node : Vnode) (index size : Nat) : Nat :=
  (validBytes index size + node.sectorSize - 1) / node.sectorSize

def firstSector (node : Vnode) (index : Nat) : Nat := index * (PAGE_SIZE / node.sectorSize)

/-! ## Filling a page -/

/-- The loop of `fill_page`, from the `i`-th of `num` sectors on. -/
def fillLoop (node : Vnode) (first num : Nat) :
    Nat → Nat → (Nat → UInt8) → Fcache → Except Errno (Nat → UInt8) × Fcache
  | 0, _, data, c => (.ok data, c)
  | fuel + 1, i, data, c =>
    if num ≤ i then (.ok data, c)
    else
      match askBmap node c (first + i) false with
      | (.error e, c) => (.error e, c)
      | (.ok extent, c) =>
        if extent.count = 0 then (.error Errno.EIO, c)
        else
          let count := min extent.count (num - i)
          if extent.mapped then
            match blockRead node c extent.lba count (i * node.sectorSize) data with
            | (.error e, c) => (.error e, c)
            | (.ok data, c) => fillLoop node first num fuel (i + count) data c
          else fillLoop node first num fuel (i + count) data c

/-- `fill_page`. What a failed fill leaves in the frame goes with the frame: every caller removes
the page. -/
def fillPage (node : Vnode) (c : Fcache) (index size : Nat) : Except Errno Unit × Fcache :=
  let valid := validBytes index size
  let num := numSectors node index size
  match fillLoop node (firstSector node index) num num 0 (fun _ => 0) c with
  | (.error e, c) => (.error e, c)
  | (.ok data, c) =>
    (.ok (), c.modify index fun pg =>
      { pg with data := fun o => if o < valid then data o else 0, uptodate := true })

/-! ## Writing pages back -/

/-- The loop of `allocate_span`, up to the sector `last`. -/
def allocateLoop (node : Vnode) (last : Nat) : Nat → Nat → Fcache → Except Errno Unit × Fcache
  | 0, _, c => (.ok (), c)
  | fuel + 1, sector, c =>
    if last ≤ sector then (.ok (), c)
    else
      match askBmap node c sector true with
      | (.error e, c) => (.error e, c)
      | (.ok extent, c) =>
        if extent.count = 0 || !extent.mapped then (.error Errno.EIO, c)
        else allocateLoop node last fuel (sector + extent.count) c

def allocateSpan (node : Vnode) (c : Fcache) (pos length : Nat) : Except Errno Unit × Fcache :=
  let sector := pos / node.sectorSize
  let last := (pos + length + node.sectorSize - 1) / node.sectorSize
  allocateLoop node last (last - sector) sector c

/-- `write_run`; `pos` is where in the page the data of the run stands. -/
def writeRun (node : Vnode) (data : Nat → UInt8) :
    Nat → Nat → Nat → Nat → Fcache → Except Errno Unit × Fcache
  | 0, _, _, _, c => (.ok (), c)
  | fuel + 1, sector, count, pos, c =>
    if count = 0 then (.ok (), c)
    else
      match askBmap node c sector false with
      | (.error e, c) => (.error e, c)
      | (.ok extent, c) =>
        if extent.count = 0 then (.error Errno.EIO, c)
        else
          let chunk := min extent.count count
          if extent.mapped then
            match blockWrite node c extent.lba chunk pos data with
            | (.error e, c) => (.error e, c)
            | (.ok _, c) =>
              writeRun node data fuel (sector + chunk) (count - chunk)
                (pos + chunk * node.sectorSize) c
          else
            -- a hole stays a hole
            writeRun node data fuel (sector + chunk) (count - chunk)
              (pos + chunk * node.sectorSize) c

/-- The inner loop of `write_page`: how many dirty sectors follow one another from `i` on. -/
def runLength (dirty : BitVec 8) (num i : Nat) : Nat → Nat → Nat
  | 0, run => run
  | fuel + 1, run =>
    if i + run < num && dirty.getLsbD (i + run) then runLength dirty num i fuel (run + 1) else run

/-- The outer loop of `write_page`. -/
def writePageLoop (node : Vnode) (data : Nat → UInt8) (dirty : BitVec 8) (first num : Nat) :
    Nat → Nat → Fcache → Except Errno Unit × Fcache
  | 0, _, c => (.ok (), c)
  | fuel + 1, i, c =>
    if num ≤ i then (.ok (), c)
    else if !dirty.getLsbD i then writePageLoop node data dirty first num fuel (i + 1) c
    else
      let run := runLength dirty num i num 1
      match writeRun node data run (first + i) run (i * node.sectorSize) c with
      | (.error e, c) => (.error e, c)
      | (.ok _, c) => writePageLoop node data dirty first num fuel (i + run) c

def writePage (node : Vnode) (c : Fcache) (pg : CachePage) (index size : Nat) :
    Except Errno Unit × Fcache :=
  let num := numSectors node index size
  writePageLoop node pg.data pg.sectors (firstSector node index) num num 0 c

/-- The body of the inner loop of `writeback_locked`: the first error is kept, and the page it
happened on stays dirty. -/
def writebackPage (node : Vnode) (size : Nat) (r : Except Errno Unit × Fcache) (index : Nat) :
    Except Errno Unit × Fcache :=
  match r.2.tree.get index with
  | none => r
  | some pg =>
    if !pg.dirty then r
    else
      match writePage node r.2 pg index size with
      | (.error e, c) => (r.1.bind fun _ => .error e, c)
      | (.ok _, c) => (r.1, markClean c index)

def writebackLoop (node : Vnode) (size : Nat) :
    Nat → Nat → Except Errno Unit × Fcache → Except Errno Unit × Fcache
  | 0, _, r => r
  | fuel + 1, start, r =>
    if r.2.numDirty = 0 then r
    else
      let batch := r.2.tree.gather start GATHER_BATCH
      match batch.getLast? with
      | none => r
      | some last =>
        writebackLoop node size fuel (last + 1) (batch.foldl (writebackPage node size) r)

def writebackLocked (node : Vnode) (c : Fcache) (size : Nat) : Except Errno Unit × Fcache :=
  writebackLoop node size (c.tree.entries.length + 1) 0 (.ok (), c)

/-- `over_dirty_limit` and, if so, the writer's own `writeback_locked`. -/
def throttle (node : Vnode) (c : Fcache) (size : Nat) : Fcache :=
  if c.chance.overLimit then (writebackLocked node c.spend size).2 else c.spend

/-! ## The calls -/

/-- `ssize_t` of a transfer that ended after `done` bytes. -/
def transferred {α : Type} (done : Nat) (result : α) (retval : Except Errno Unit) :
    Except Errno α :=
  match retval with
  | .error e => if done = 0 then .error e else .ok result
  | .ok _ => .ok result

/-- The fill every user of a page makes when the page is not `PFRAME_UPTODATE`. -/
def fetchPage (node : Vnode) (c : Fcache) (index size : Nat) : Except Errno Unit × Fcache :=
  if (c.tree.get index).any (·.uptodate) then (.ok (), c)
  else
    match fillPage node c index size with
    | (.error e, c) => (.error e, removePage c index)
    | (.ok _, c) => (.ok (), c)

/-- The bytes of a page from `inPage` on. -/
def pageBytes (c : Fcache) (index inPage length : Nat) : List UInt8 :=
  (List.range length).map fun j => ((c.tree.get index).getD .blank).data (inPage + j)

/-- The loop of `fcache_read`; `out` is what the buffer holds already. -/
def readLoop (node : Vnode) (offset count size : Nat) :
    Nat → List UInt8 → Fcache → List UInt8 × Except Errno Unit × Fcache
  | 0, out, c => (out, .ok (), c)
  | fuel + 1, out, c =>
    if count ≤ out.length then (out, .ok (), c)
    else
      let pos := offset + out.length
      let index := pos / PAGE_SIZE
      let inPage := pos % PAGE_SIZE
      let chunk := min (PAGE_SIZE - inPage) (count - out.length)
      match getPage c index with
      | (false, c) => (out, .error Errno.ENOMEM, c)
      | (true, c) =>
        match fetchPage node c index size with
        | (.error e, c) => (out, .error e, c)
        | (.ok _, c) =>
          let c := c.modify index fun pg => { pg with accessed := true }
          readLoop node offset count size fuel (out ++ pageBytes c index inPage chunk) c

def fcacheRead (node : Vnode) (c : Fcache) (count offset size : Nat) :
    Except Errno (List UInt8) × Fcache :=
  if !sectorSizeValid node then (.error Errno.EINVAL, c)
  else if size ≤ offset then (.ok [], c)
  else
    let count := min count (size - offset)
    let (out, retval, c) := readLoop node offset count size count [] c
    (transferred out.length out retval, c)

/-- `get_page` of a writer, which writes its own dirty pages back to make room. -/
def getPageForWrite (node : Vnode) (c : Fcache) (index size : Nat) : Bool × Fcache :=
  match getPage c index with
  | (true, c) => (true, c)
  | (false, c) =>
    if c.numDirty > 0 then getPage (writebackLocked node c size).2 index else (false, c)

/-- The end of the body of `fcache_write`: the bytes go into the page and the page becomes
dirty. -/
def storeChunk (node : Vnode) (c : Fcache) (pos : Nat) (chunk : List UInt8) : Fcache :=
  let index := pos / PAGE_SIZE
  let inPage := pos % PAGE_SIZE
  let c := c.modify index fun pg =>
    { pg with data := overlay inPage chunk pg.data, uptodate := true, accessed := true }
  markDirty c index (sectorSpan node inPage chunk.length)

/-- The part of the body of `fcache_write` that puts a chunk into a page that is there. -/
def writeChunk (node : Vnode) (c : Fcache) (pos size : Nat) (chunk : List UInt8) :
    Except Errno Unit × Fcache :=
  let index := pos / PAGE_SIZE
  -- a page written whole needs nothing from the disk
  match if chunk.length < PAGE_SIZE then fetchPage node c index size else (.ok (), c) with
  | (.error e, c) => (.error e, c)
  | (.ok _, c) =>
    match allocateSpan node c pos chunk.length with
    | (.error e, c) =>
      (.error e, if (c.tree.get index).any (·.uptodate) then c else removePage c index)
    | (.ok _, c) => (.ok (), storeChunk node c pos chunk)

/-- The loop of `fcache_write`: the bytes done and the size of the file so far come back with the
result. -/
def writeLoop (node : Vnode) (bytes : List UInt8) (offset : Nat) :
    Nat → Nat → Nat → Fcache → Nat × Nat × Except Errno Unit × Fcache
  | 0, done, size, c => (done, size, .ok (), c)
  | fuel + 1, done, size, c =>
    if bytes.length ≤ done then (done, size, .ok (), c)
    else
      let pos := offset + done
      let chunk := min (PAGE_SIZE - pos % PAGE_SIZE) (bytes.length - done)
      match getPageForWrite node c (pos / PAGE_SIZE) size with
      | (false, c) => (done, size, .error Errno.ENOMEM, c)
      | (true, c) =>
        match writeChunk node c pos size ((bytes.drop done).take chunk) with
        | (.error e, c) => (done, size, .error e, c)
        | (.ok _, c) => writeLoop node bytes offset fuel (done + chunk) (max size (pos + chunk)) c

def fcacheWrite (node : Vnode) (c : Fcache) (bytes : List UInt8) (offset size : Nat) :
    Except Errno Nat × Fcache :=
  if !sectorSizeValid node then (.error Errno.EINVAL, c)
  else
    let (done, size, retval, c) := writeLoop node bytes offset bytes.length 0 size c
    (transferred done done retval, throttle node c size)

/-- The part of `fcache_fault` that makes a page ready for writing. -/
def faultWrite (node : Vnode) (c : Fcache) (index size : Nat) : Except Errno Unit × Fcache :=
  let valid := validBytes index size
  match allocateSpan node c (index * PAGE_SIZE) valid with
  | (.error e, c) => (.error e, c)
  | (.ok _, c) => (.ok (), markDirty c index (sectorSpan node 0 valid))

/-- The end of `fcache_fault`: the frame is mapped, or the mapping that is there gets the new
protection (`patched`). -/
def faultMap (c : Fcache) (index : Nat) (patched : Bool) : Except Errno Unit × Fcache :=
  let c := c.modify index fun pg => { pg with accessed := true }
  if patched then (.ok (), c)
  else if c.chance.ok then
    (.ok (), c.spend.modify index fun pg => { pg with mappings := pg.mappings + 1 })
  else (.error Errno.ENOMEM, c.spend)

def fcacheFault (node : Vnode) (c : Fcache) (offset size : Nat) (write patched : Bool) :
    Except Errno Unit × Fcache :=
  let index := offset / PAGE_SIZE
  if !sectorSizeValid node then (.error Errno.EINVAL, c)
  else if size ≤ offset then (.error Errno.ENXIO, c)
  else if write && node.readonly then (.error Errno.EROFS, c)
  else
    match getPage (if write then throttle node c size else c) index with
    | (false, c) => (.error Errno.ENOMEM, c)
    | (true, c) =>
      match fetchPage node c index size with
      | (.error e, c) => (.error e, c)
      | (.ok _, c) =>
        match if write then faultWrite node c index size else (.ok (), c) with
        | (.error e, c) => (.error e, c)
        | (.ok _, c) => faultMap c index patched

def fcacheWriteback (node : Vnode) (c : Fcache) (size : Nat) : Except Errno Unit × Fcache :=
  writebackLocked node c size

/-- The first loop of `fcache_truncate`. -/
def truncateLoop (keep : Nat) : Nat → Fcache → Fcache
  | 0, c => c
  | fuel + 1, c =>
    match c.tree.gather keep GATHER_BATCH with
    | [] => c
    | batch => truncateLoop keep fuel (batch.foldl removePage c)

def fcacheTruncate (c : Fcache) (size : Nat) : Fcache :=
  let keep := (size + PAGE_SIZE - 1) / PAGE_SIZE
  let c := truncateLoop keep (c.tree.entries.length + 1) c
  let tail := size % PAGE_SIZE
  if tail = 0 then c
  else c.modify (size / PAGE_SIZE) fun pg =>
    { pg with data := fun o => if o < tail then pg.data o else 0 }

end Vex.Fs
