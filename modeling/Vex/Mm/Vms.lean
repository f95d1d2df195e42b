import Vex.Lib.Overlay
import Vex.Mm.Frame
import Vex.Mm.Region

/-! Address spaces: `mm/vms.c` over the region lists and the page-level state.

Each function is under the address space's mutex in the source, so it is one step here; the file
layer behind a mapping is the parameter `Files`. `split_region` takes one answer of the supply
whether or not it has to allocate. The two loops that wait for a concurrent reclaim to be over
carry fuel. A kernel is any number of address spaces over one set of frames, `Op` the calls made
on them and the loads and stores of user code that the page tables let through. -/

namespace Vex.Mm

/-- What `vms.c` calls in the file layer, for an open file and an offset in it: `vnode_fault`,
which maps a page of the file cache, and `vnode_resolve_page`, which names a device page. -/
structure Files where
  vnodeFault : Nat → BitVec 64 → Slot → Vprot → Pages → Except Errno Unit × Pages
  vnodeResolvePage : Nat → BitVec 64 → Pages → Except Errno (Nat × Vprot) × Pages

/-- No file to fault pages in from. -/
def noFiles : Files := ⟨fun _ _ _ _ p => (.error Errno.EIO, p), fun _ _ p => (.error Errno.EIO, p)⟩

/-- The page addresses of a region, as the source's loops go through them. -/
def Region.pages (r : Region) : List Nat :=
  (List.range ((r.stop - r.start) / PAGE_SIZE)).map fun i => r.start + i * PAGE_SIZE

/-! ## Faults -/

def unshareLocked (p : Pages) (v : Nat) (region : Region) (page : Nat) :
    Except Errno Unit × Pages :=
  let vprot := region.vprot ||| VPROT_USER
  match rmapPin p (v, page) with
  | (none, p) => (.error .EAGAIN, p)
  | (some (phys, true), p) =>
    if Vprot.writes (pmapResolveVprot p (v, page)) ≠ Vprot.writes vprot then
      ((pmapPatchNoflush p (v, page) vprot).1,
        putFrame (pmapPatchNoflush p (v, page) vprot).2 phys)
    else (.ok (), putFrame p phys)
  | (some (phys, false), p) =>
    match pslabAllocPhys p with
    | (none, p) => (.error .ENOMEM, putFrame p phys)
    | (some copy, p) =>
      match rmapReplace (p.setData copy (p.data phys)) (v, page) phys copy vprot with
      | (.error err, p) => (.error err, putFrame (pslabFreePhys p copy) phys)
      | (.ok _, p) => (.ok (), putFrame (putFrame p phys) phys)

/-- The file offset of a page of the region. -/
def Region.offsetOf (region : Region) (page : Nat) : BitVec 64 :=
  region.fileOffset + BitVec.ofNat 64 (page - region.start)

/-- `fault_device_locked`; a device region always has a file. -/
def faultDeviceLocked (files : Files) (p : Pages) (v : Nat) (region : Region) (page : Nat) :
    Except Errno Unit × Pages :=
  if (pmapResolveAddress p (v, page)).isSome then (.ok (), p)
  else
    match region.file with
    | none => (.error .EFAULT, p)
    | some file =>
      match files.vnodeResolvePage file (region.offsetOf page) p with
      | (.error err, p) => (.error err, p)
      | (.ok (phys, cache), p) =>
        pmapMap p (v, page) phys (region.vprot ||| (cache &&& VPROT_CACHE_MASK) ||| VPROT_USER)

/-- The loop of `fault_locked`; `none` is the `break` to the anonymous page. -/
def faultLoop (files : Files) (v : Nat) (region : Region) (page : Nat) (exclusive : Bool) :
    Nat → Pages → Option (Except Errno Unit) × Pages
  | 0, p => (some (.error .EAGAIN), p)
  | fuel + 1, p =>
    let mapped := (pmapResolveAddress p (v, page)).isSome
    if mapped && !exclusive then (some (.ok ()), p)
    else if mapped && !region.shared then
      match unshareLocked p v region page with
      | (.error .EAGAIN, p) => faultLoop files v region page exclusive fuel p
      | (retval, p) => (some retval, p)
    else
      match region.file with
      | none => (none, p)
      | some file =>
        let rights := region.vprot ||| VPROT_USER
        let rights := if !region.shared || !exclusive then rights &&& ~~~VPROT_WRITE else rights
        match files.vnodeFault file (region.offsetOf page) (v, page) rights p with
        | (.error err, p) => (some (.error err), p)
        | (.ok _, p) =>
          if region.shared then (some (.ok ()), p)
          else faultLoop files v region page exclusive fuel p

/-- The end of `fault_locked`: a zeroed frame of its own for the page. -/
def faultZero (p : Pages) (v : Nat) (region : Region) (page : Nat) : Except Errno Unit × Pages :=
  match pslabAllocPhys p with
  | (none, p) => (.error .ENOMEM, p)
  | (some phys, p) =>
    match rmapMap (p.setData phys fun _ => 0) (v, page) phys (region.vprot ||| VPROT_USER) with
    | (.error err, p) => (.error err, pslabFreePhys p phys)
    | (.ok _, p) => (.ok (), p)

def faultLocked (files : Files) (fuel : Nat) (p : Pages) (v : Nat) (regions : List Region)
    (page : Nat) (access : Vprot) (exclusive : Bool) : Except Errno Unit × Pages :=
  match findRegion regions page with
  | none => (.error .EFAULT, p)
  | some region =>
    if region.vprot &&& access ≠ access then (.error .EACCES, p)
    else if region.device then faultDeviceLocked files p v region page
    else
      match faultLoop files v region page exclusive (fuel + 1) p with
      | (some retval, p) => (retval, p)
      | (none, p) => faultZero p v region page

/-- The loop of `pin_locked`. -/
def pinLoop (files : Files) (fuel : Nat) (v : Nat) (regions : List Region) (page : Nat)
    (access : Vprot) (exclusive : Bool) : Nat → Pages → Option Nat × Pages
  | 0, p => (none, p)
  | n + 1, p =>
    match faultLocked files fuel p v regions page access exclusive with
    | (.error _, p) => (none, p)
    | (.ok _, p) =>
      match rmapPin p (v, page) with
      | (some (phys, _), p) => (some phys, p)
      | (none, p) => pinLoop files fuel v regions page access exclusive n p

def pinLocked (files : Files) (fuel : Nat) (p : Pages) (v : Nat) (regions : List Region)
    (virt : Nat) (access : Vprot) (exclusive : Bool) : Option Nat × Pages :=
  if (findRegion regions (pageAlign virt)).any (·.device) then (none, p)
  else pinLoop files fuel v regions (pageAlign virt) access exclusive (fuel + 1) p

/-! ## Access from the kernel -/

/-- `access_begin_locked`: the frame behind `virt`, and whether it is pinned until `access_end`.
A device page is reached through the mapping of the address space, which has to be the current
one. -/
def accessBeginLocked (files : Files) (fuel : Nat) (current : Bool) (p : Pages) (v : Nat)
    (regions : List Region) (virt : Nat) (access : Vprot) (exclusive : Bool) :
    Option (Nat × Bool) × Pages :=
  match (findRegion regions virt).filter (·.device) with
  | some region =>
    if !current ∨ region.vprot &&& access ≠ access then (none, p)
    else
      match faultDeviceLocked files p v region (pageAlign virt) with
      | (.error _, p) => (none, p)
      | (.ok _, p) => ((p.pmaps (v, pageAlign virt)).map fun entry => (entry.frame, false), p)
  | none =>
    match pinLocked files fuel p v regions virt access exclusive with
    | (none, p) => (none, p)
    | (some f, p) => (some (f, true), p)

def accessEnd (p : Pages) (userAccess : Nat × Bool) : Pages :=
  if userAccess.2 then putFrame p userAccess.1 else p

/-- A `memcpy` out of a frame. -/
def readFrame (p : Pages) (f offset size : Nat) : List UInt8 :=
  (List.range size).map fun i => p.data f (offset + i)

/-- A `memcpy` into a frame. -/
def writeFrame (p : Pages) (f offset : Nat) (bytes : List UInt8) : Pages :=
  p.setData f (Lib.overlay offset bytes (p.data f))

/-- The loop of `vms_copyin`, at most `n` pages: what `retval` is and the bytes read so far. -/
def copyinLoop (files : Files) (fuel : Nat) (current : Bool) (v : Nat) (regions : List Region) :
    Nat → Nat → Nat → List UInt8 → Pages → Except Errno Nat × List UInt8 × Pages
  | 0, _, _, ptr, p => (.ok ptr.length, ptr, p)
  | n + 1, src, size, ptr, p =>
    if size = 0 then (.ok ptr.length, ptr, p)
    else
      match accessBeginLocked files fuel current p v regions src VPROT_READ false with
      | (none, p) => (.error .EFAULT, ptr, p)
      | (some userAccess, p) =>
        let chunk := min (PAGE_SIZE - pageOffset src) size
        copyinLoop files fuel current v regions n (src + chunk) (size - chunk)
          (ptr ++ readFrame p userAccess.1 (pageOffset src) chunk) (accessEnd p userAccess)

/-- The loop of `vms_copyout`: what `retval` is and how many bytes were written. -/
def copyoutLoop (files : Files) (fuel : Nat) (current : Bool) (v : Nat) (regions : List Region) :
    Nat → Nat → List UInt8 → Nat → Pages → Except Errno Nat × Nat × Pages
  | 0, _, _, done, p => (.ok done, done, p)
  | n + 1, dst, src, done, p =>
    if src.length = 0 then (.ok done, done, p)
    else
      match accessBeginLocked files fuel current p v regions dst VPROT_WRITE true with
      | (none, p) => (.error .EFAULT, done, p)
      | (some userAccess, p) =>
        let chunk := min (PAGE_SIZE - pageOffset dst) src.length
        copyoutLoop files fuel current v regions n (dst + chunk) (src.drop chunk) (done + chunk)
          (accessEnd (writeFrame p userAccess.1 (pageOffset dst) (src.take chunk)) userAccess)

/-! ## Releasing pages -/

def FREE_BATCH : Nat := 64

def freeBatch (p : Pages) (batch : List Nat) : Pages := batch.foldl putFrame p

/-- One round of the loop of `release_pages`, with the batch. -/
def releasePage (v : Nat) (s : List Nat × Pages) (page : Nat) : List Nat × Pages :=
  match rmapUnmap s.2 (v, page) with
  | (none, p) => (s.1, p)
  | (some phys, p) =>
    if (s.1 ++ [phys]).length = FREE_BATCH then ([], freeBatch p (s.1 ++ [phys]))
    else (s.1 ++ [phys], p)

/-- `release_pages`, with `release_device_pages`. -/
def releasePages (v : Nat) (s : List Nat × Pages) (region : Region) : List Nat × Pages :=
  if region.device then
    (s.1, region.pages.foldl (fun p page => (pmapUnmapNoflush p (v, page)).2) s.2)
  else region.pages.foldl (releasePage v) s

/-- The regions taken off a list are released, and the last batch freed. -/
def releaseRegions (v : Nat) (p : Pages) (regions : List Region) : Pages :=
  freeBatch (regions.foldl (releasePages v) ([], p)).2 (regions.foldl (releasePages v) ([], p)).1

def unmapLocked (p : Pages) (v : Nat) (regions : List Region) (start stop : Nat) :
    Except Errno Unit × List Region × Pages :=
  match splitRegion p.answer.isSome regions start with
  | .error err => (.error err, regions, p.spent)
  | .ok regions =>
    match splitRegion p.spent.answer.isSome regions stop with
    | .error err => (.error err, regions, p.spent.spent)
    | .ok regions => (.ok (), (takeOut start stop regions).1,
        releaseRegions v p.spent.spent (takeOut start stop regions).2)

/-! ## Operations on one address space -/

def vmsMap (userEnd : Nat) (p : Pages) (regions : List Region) (start stop : Nat) (vprot : Vprot)
    (backing : Option Backing) : Except Errno Unit × List Region × Pages :=
  if !rangeValid userEnd start stop then (.error .EINVAL, regions, p)
  else if p.answer.isNone then (.error .ENOMEM, regions, p.spent)
  else if !rangeFree start stop regions then (.error .EEXIST, regions, p.spent)
  else (.ok (), insertRegion (allocRegion start stop vprot backing) regions, p.spent)

def vmsMapReplace (userEnd : Nat) (p : Pages) (v : Nat) (regions : List Region)
    (start stop : Nat) (vprot : Vprot) (backing : Option Backing) :
    Except Errno Unit × List Region × Pages :=
  if !rangeValid userEnd start stop then (.error .EINVAL, regions, p)
  else if p.answer.isNone then (.error .ENOMEM, regions, p.spent)
  else
    match unmapLocked p.spent v regions start stop with
    | (.error err, regions, p) => (.error err, regions, p)
    | (.ok _, regions, p) =>
      (.ok (), insertRegion (allocRegion start stop vprot backing) regions, p)

/-- `vms_map_any`; the result is the address. -/
def vmsMapAny (p : Pages) (regions : List Region) (size : Nat) (vprot : Vprot)
    (backing : Option Backing) : Except Errno Nat × List Region × Pages :=
  if size = 0 ∨ pageOffset size ≠ 0 then (.error .EINVAL, regions, p)
  else if p.answer.isNone then (.error .ENOMEM, regions, p.spent)
  else
    match findHighestGap regions size with
    | none => (.error .ENOMEM, regions, p.spent)
    | some start =>
      (.ok start, insertRegion (allocRegion start (start + size) vprot backing) regions, p.spent)

def vmsUnmap (userEnd : Nat) (p : Pages) (v : Nat) (regions : List Region) (start stop : Nat) :
    Except Errno Unit × List Region × Pages :=
  if !rangeValid userEnd start stop then (.error .EINVAL, regions, p)
  else unmapLocked p v regions start stop

/-- One round of the inner loop of `vms_protect`. -/
def protectPage (v : Nat) (vprot : Vprot) (it : Region) (p : Pages) (page : Nat) : Pages :=
  match pmapResolveAddress p (v, page) with
  | none => p
  | some phys =>
    let pageVprot := vprot ||| VPROT_USER
    let pageVprot :=
      if it.device then pageVprot ||| (pmapResolveVprot p (v, page) &&& VPROT_CACHE_MASK)
      else if it.shared || pframeShared p phys then pageVprot &&& ~~~VPROT_WRITE
      else pageVprot
    (pmapPatchNoflush p (v, page) pageVprot).2

def vmsProtect (userEnd : Nat) (p : Pages) (v : Nat) (regions : List Region) (start stop : Nat)
    (vprot : Vprot) : Except Errno Unit × List Region × Pages :=
  if !rangeValid userEnd start stop then (.error .EINVAL, regions, p)
  else
    let vprot := vprot &&& ~~~VPROT_USER
    if !rangeCovered regions start stop then (.error .ENOMEM, regions, p)
    else if Vprot.writes vprot && writeForbidden stop (seek start regions).2 then
      (.error .EACCES, regions, p)
    else
      match splitRegion p.answer.isSome regions start with
      | .error err => (.error err, regions, p.spent)
      | .ok regions =>
        match splitRegion p.spent.answer.isSome regions stop with
        | .error err => (.error err, regions, p.spent.spent)
        | .ok regions =>
          (.ok (), (seek start regions).1 ++ protectFrom stop vprot (seek start regions).2,
            ((seek start regions).2.takeWhile (·.start < stop)).foldl
              (fun p it => it.pages.foldl (protectPage v vprot it) p) p.spent.spent)

/-- One round of the inner loop of `vms_clone`. -/
def clonePage (child source : Nat) (it : Region) (p : Pages) (page : Nat) :
    Except Errno Unit × Pages :=
  let vprot := (it.vprot &&& ~~~VPROT_WRITE) ||| VPROT_USER
  match rmapPin p (source, page) with
  | (none, p) => (.ok (), p)
  | (some (phys, _), p) =>
    match rmapMap p (child, page) phys vprot with
    | (.error err, p) => (.error err, putFrame p phys)
    | (.ok _, p) =>
      if Vprot.writes it.vprot && !it.shared then
        (.ok (), (pmapPatchNoflush p (source, page) vprot).2)
      else (.ok (), p)

/-- The inner loop of `vms_clone`. -/
def clonePages (child source : Nat) (it : Region) :
    List Nat → Pages → Except Errno Unit × Pages
  | [], p => (.ok (), p)
  | page :: rest, p =>
    match clonePage child source it p page with
    | (.error err, p) => (.error err, p)
    | (.ok _, p) => clonePages child source it rest p

/-- The region of the child that `vms_clone` makes for one of the source. -/
def cloneRegion (it : Region) : Region :=
  allocRegion it.start it.stop it.vprot
    (some ⟨it.file, it.fileOffset, it.shared, it.mayWrite, it.device⟩)

/-- The outer loop of `vms_clone`, with the child's list so far. -/
def cloneRegions (child source : Nat) :
    List Region → List Region → Pages → Except Errno Unit × List Region × Pages
  | [], done, p => (.ok (), done, p)
  | it :: rest, done, p =>
    if p.answer.isNone then (.error .ENOMEM, done, p.spent)
    else if it.device then cloneRegions child source rest (done ++ [cloneRegion it]) p.spent
    else
      match clonePages child source it it.pages p.spent with
      | (.error err, p) => (.error err, done ++ [cloneRegion it], p)
      | (.ok _, p) => cloneRegions child source rest (done ++ [cloneRegion it]) p

/-- `vms_clone` into a child without regions: a failure unmaps what the child got. -/
def vmsClone (p : Pages) (child source : Nat) (regions : List Region) :
    Except Errno Unit × List Region × Pages :=
  match cloneRegions child source regions [] p with
  | (.ok _, done, p) => (.ok (), done, p)
  | (.error err, done, p) => (.error err, [], releaseRegions child p done)

def vmsFault (files : Files) (fuel userEnd : Nat) (p : Pages) (v : Nat) (regions : List Region)
    (virt : Nat) (access : Vprot) : Except Errno Unit × Pages :=
  if virt ≥ userEnd then (.error .EFAULT, p)
  else
    let access := access &&& ~~~VPROT_USER
    faultLocked files fuel p v regions (pageAlign virt) access (Vprot.writes access)

/-- `vms_touch`: the frame of the page, not pinned any more. -/
def vmsTouch (files : Files) (fuel userEnd : Nat) (p : Pages) (v : Nat) (regions : List Region)
    (virt : Nat) : Option Nat × Pages :=
  if virt ≥ userEnd then (none, p)
  else
    match pinLocked files fuel p v regions virt VPROT_NONE true with
    | (none, p) => (none, p)
    | (some phys, p) => (some phys, putFrame p phys)

/-- `vms_pin`: the frame of the page. -/
def vmsPin (files : Files) (fuel userEnd : Nat) (p : Pages) (v : Nat) (regions : List Region)
    (virt : Nat) : Option Nat × Pages :=
  if virt ≥ userEnd then (none, p)
  else
    match findRegion regions virt with
    | none => (none, p)
    | some region => pinLocked files fuel p v regions virt VPROT_READ (!region.shared)

def vmsUnpin (p : Pages) (f : Nat) : Pages := putFrame p f

def vmsCopyin (files : Files) (fuel userEnd : Nat) (current : Bool) (p : Pages) (v : Nat)
    (regions : List Region) (src size : Nat) : Except Errno Nat × List UInt8 × Pages :=
  if src ≥ userEnd ∨ size > userEnd - src then (.error .EFAULT, [], p)
  else copyinLoop files fuel current v regions size src size [] p

def vmsCopyout (files : Files) (fuel userEnd : Nat) (current : Bool) (p : Pages) (v : Nat)
    (regions : List Region) (dst : Nat) (src : List UInt8) : Except Errno Nat × Nat × Pages :=
  if dst ≥ userEnd ∨ src.length > userEnd - dst then (.error .EFAULT, 0, p)
  else copyoutLoop files fuel current v regions src.length dst src 0 p

end Vex.Mm
