import Vex.Lib.Run
import Vex.Mm.Vms

/-! Any number of address spaces over one set of page frames, and what can be done to them: the
calls of `vms.h`, and the loads and stores of user code. -/

namespace Vex.Mm

/-- The address spaces that exist, by the name the caller has for them, and the pages under
them; `mode` is the paging mode the bootloader reported. -/
structure Kernel where
  mode : Nat
  spaces : Nat → Option (List Region)
  pages : Pages

/-- A call of the memory management, or an access of user code. -/
inductive Op
  | create (v : Nat)
  | release (v : Nat)
  | map (v start stop : Nat) (vprot : Vprot) (backing : Option Backing)
  | mapReplace (v start stop : Nat) (vprot : Vprot) (backing : Option Backing)
  | mapAny (v size : Nat) (vprot : Vprot) (backing : Option Backing)
  | unmap (v start stop : Nat)
  | protect (v start stop : Nat) (vprot : Vprot)
  | unmapAll (v : Nat)
  | clone (child source : Nat)
  | fault (v virt : Nat) (access : Vprot)
  /-- `vms_touch`, after which the caller writes the bytes at the physical address it got. -/
  | touch (v virt : Nat) (bytes : List UInt8)
  | copyin (v src size : Nat) (current : Bool)
  | copyout (v dst : Nat) (src : List UInt8) (current : Bool)
  | load (v virt : Nat)
  | store (v virt : Nat) (byte : UInt8)

/-- What a step returns, and the bytes it moved out of or into the address space. -/
structure Out where
  ret : Except Errno Nat
  bytes : List UInt8

namespace Kernel

/-- The kernel before any address space exists, with the answers its allocations will get. -/
def init (mode : Nat) (supply : List (Option Nat)) : Kernel where
  mode := mode
  spaces := fun _ => none
  pages :=
    { pmaps := fun _ => none
      tables := fun _ => false
      frames := fun _ => ⟨0, false, []⟩
      data := fun _ _ => 0
      supply := supply }

/-- `pmap_user_end`, the same in every address space. -/
def userEnd (k : Kernel) : Nat := pmapUserEnd k.mode

/-- The outcome of a call that changes the region list of `v` and the pages. -/
def put (k : Kernel) (v : Nat) (r : Except Errno Nat × List Region × Pages) : Out × Kernel :=
  (⟨r.1, []⟩, { k with spaces := Function.update k.spaces v (some r.2.1), pages := r.2.2 })

/-- A call without a result other than success is zero. -/
def unit {α : Type} (r : Except Errno Unit × α) : Except Errno Nat × α :=
  (r.1.map fun _ => 0, r.2)

/-- A page table without entries, as `pmap_create` makes it and `pmap_release` leaves it. -/
def clearTables (p : Pages) (v : Nat) : Pages :=
  { p with
    pmaps := fun slot => if slot.1 = v then none else p.pmaps slot
    tables := fun t => if t.1 = v then false else p.tables t }

/-- One step. A call on an address space that does not exist, `vms_clone` into one that has
regions and an access that faults are no steps. -/
def step (files : Files) (fuel : Nat) (k : Kernel) : Op → Option (Out × Kernel)
  | .create v =>
    if (k.spaces v).isSome then none
    else if k.pages.answer.isNone then
      some (⟨.error .ENOMEM, []⟩, { k with pages := k.pages.spent })
    else some (⟨.ok 0, []⟩, { k with
      spaces := Function.update k.spaces v (some [])
      pages := clearTables k.pages.spent v })
  | .release v => (k.spaces v).map fun regions =>
    (⟨.ok 0, []⟩, { k with
      spaces := Function.update k.spaces v none
      pages := clearTables (releaseRegions v k.pages regions) v })
  | .map v start stop vprot backing => (k.spaces v).map fun regions =>
    k.put v (unit (vmsMap k.userEnd k.pages regions start stop vprot backing))
  | .mapReplace v start stop vprot backing => (k.spaces v).map fun regions =>
    k.put v (unit (vmsMapReplace k.userEnd k.pages v regions start stop vprot backing))
  | .mapAny v size vprot backing => (k.spaces v).map fun regions =>
    k.put v (vmsMapAny k.pages regions size vprot backing)
  | .unmap v start stop => (k.spaces v).map fun regions =>
    k.put v (unit (vmsUnmap k.userEnd k.pages v regions start stop))
  | .protect v start stop vprot => (k.spaces v).map fun regions =>
    k.put v (unit (vmsProtect k.userEnd k.pages v regions start stop vprot))
  | .unmapAll v => (k.spaces v).map fun regions =>
    k.put v (.ok 0, [], releaseRegions v k.pages regions)
  | .clone child source =>
    if k.spaces child = some [] then (k.spaces source).map fun regions =>
      k.put child (unit (vmsClone k.pages child source regions))
    else none
  | .fault v virt access => (k.spaces v).map fun regions =>
    let r := vmsFault files fuel k.userEnd k.pages v regions virt access
    (⟨r.1.map fun _ => 0, []⟩, { k with pages := r.2 })
  | .touch v virt bytes => (k.spaces v).map fun regions =>
    match vmsTouch files fuel k.userEnd k.pages v regions virt with
    | (none, p) => (⟨.ok 0, []⟩, { k with pages := p })
    | (some f, p) =>
      let bytes := bytes.take (PAGE_SIZE - pageOffset virt)
      (⟨.ok (f * PAGE_SIZE + pageOffset virt), bytes⟩,
        { k with pages := writeFrame p f (pageOffset virt) bytes })
  | .copyin v src size current => (k.spaces v).map fun regions =>
    let r := vmsCopyin files fuel k.userEnd current k.pages v regions src size
    (⟨r.1, r.2.1⟩, { k with pages := r.2.2 })
  | .copyout v dst src current => (k.spaces v).map fun regions =>
    let r := vmsCopyout files fuel k.userEnd current k.pages v regions dst src
    (⟨r.1, src.take r.2.1⟩, { k with pages := r.2.2 })
  | .load v virt => (k.pages.pmaps (v, pageAlign virt)).map fun entry =>
    (⟨.ok 0, [k.pages.data entry.frame (pageOffset virt)]⟩, k)
  | .store v virt byte =>
    ((k.pages.pmaps (v, pageAlign virt)).filter (Vprot.writes ·.vprot)).map fun entry =>
      (⟨.ok 0, [byte]⟩,
        { k with pages := writeFrame k.pages entry.frame (pageOffset virt) [byte] })

end Kernel

end Vex.Mm
