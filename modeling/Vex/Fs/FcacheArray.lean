import Vex.Fs.FcacheCalls
import Vex.Lib.Run

/-! The file cache refines a plain array of bytes: for sectors that fit the eight dirty bits of a
page, every run of the calls is a run of the same operations on an array, and a writeback brings
the array to the disk. With smaller sectors the dirty bits of the later sectors of a page are lost
in `mark_dirty`, and the bytes written there with them. -/

namespace Vex.Fs

open Lib Mm List Option

/-! ## A file behind its cache -/

/-- A cached file and the size its file system keeps for it. -/
structure CachedFile where
  cache : Fcache
  size : Nat

inductive FileOp
  | write (bytes : List UInt8) (offset : Nat)
  | read (count offset : Nat)
  | truncate (size : Nat)
  | writeback
  | reclaim (visits : List Nat)
  deriving DecidableEq

inductive FileOut
  | written (r : Except Errno Nat)
  | read (r : Except Errno (List UInt8))
  | done (r : Except Errno Unit)
  deriving DecidableEq

/-- A call, by a file system that writes without gaps, truncates to shrink only and follows the
size with what `fcache_write` reports. -/
def CachedFile.step (node : Vnode) (f : CachedFile) : FileOp → Option (FileOut × CachedFile)
  | .write bytes offset =>
    if offset ≤ f.size then
      match fcacheWrite node f.cache bytes offset f.size with
      | (.ok n, c) => some (.written (.ok n), ⟨c, max f.size (offset + n)⟩)
      | (.error e, c) => some (.written (.error e), ⟨c, f.size⟩)
    else none
  | .read count offset =>
    let (r, c) := fcacheRead node f.cache count offset f.size
    some (.read r, ⟨c, f.size⟩)
  | .truncate size =>
    if size ≤ f.size then some (.done (.ok ()), ⟨fcacheTruncate f.cache size, size⟩) else none
  | .writeback =>
    let (r, c) := fcacheWriteback node f.cache f.size
    some (.done r, ⟨c, f.size⟩)
  | .reclaim visits => some (.done (.ok ()), ⟨fcacheReclaim f.cache visits, f.size⟩)

/-! ## The array -/

/-- The same operation on a plain array. A write may end early, or fail, only if some of its
positions have no place on disk. -/
inductive PlainStep (node : Vnode) (m : Nat → Option Nat) :
    List UInt8 → FileOp × FileOut → List UInt8 → Prop
  | write {a bytes : List UInt8} {offset n : Nat} : offset ≤ a.length → n ≤ bytes.length →
    (Mapped node m offset bytes.length → n = bytes.length) →
    PlainStep node m a (.write bytes offset, .written (.ok n))
      (a.take offset ++ bytes.take n ++ a.drop (offset + n))
  | refused {a bytes : List UInt8} {offset : Nat} {e : Errno} :
    ¬ Mapped node m offset bytes.length →
    PlainStep node m a (.write bytes offset, .written (.error e)) a
  | read {a : List UInt8} {count offset : Nat} :
    PlainStep node m a (.read count offset, .read (.ok ((a.drop offset).take count))) a
  | truncate {a : List UInt8} {size : Nat} : size ≤ a.length →
    PlainStep node m a (.truncate size, .done (.ok ())) (a.take size)
  | writeback {a : List UInt8} : PlainStep node m a (.writeback, .done (.ok ())) a
  | reclaim {a : List UInt8} {visits : List Nat} :
    PlainStep node m a (.reclaim visits, .done (.ok ())) a

/-- The bytes of an array, zeroes past its end. -/
def bytesOf (a : List UInt8) (p : Nat) : UInt8 := a.getD p 0

/-- The file a volume holds. -/
def fileOnDisk (node : Vnode) (m : Nat → Option Nat) (disk : Nat → Nat → UInt8) (size : Nat) :
    List UInt8 :=
  (List.range size).map fun p => sectorByte m disk (p / node.sectorSize) (p % node.sectorSize)

/-- The mapped sectors hold the array. -/
def OnDisk (node : Vnode) (m : Nat → Option Nat) (disk : Nat → Nat → UInt8) (a : List UInt8) :
    Prop :=
  ∀ p lba, p < a.length → m (p / node.sectorSize) = some lba →
    disk lba (p % node.sectorSize) = bytesOf a p

variable {node : Vnode} {m : Nat → Option Nat} {a l : List UInt8} {offset n p : Nat}

theorem bytesOf_splice (h : offset ≤ a.length) :
    bytesOf (a.take offset ++ l ++ a.drop (offset + l.length)) = overlay offset l (bytesOf a) := by
  funext p
  have hlen : (a.take offset).length = offset := by simpa using h
  simp only [bytesOf, getD_eq_getElem?_getD, append_assoc]
  by_cases h1 : p < offset
  · rw [overlay_of_lt h1, getElem?_append_left (by omega), getElem?_take_of_lt h1,
      bytesOf, getD_eq_getElem?_getD]
  rw [getElem?_append_right (by omega), hlen]
  by_cases h2 : p < offset + l.length
  · rw [overlay_of_mem (by omega) (by omega), getElem?_append_left (by omega),
      getElem?_eq_getElem (by omega), getD_some]
  · rw [overlay_of_ge (by omega), getElem?_append_right (by omega), getElem?_drop]
    congr 2
    omega

theorem length_splice (h : offset ≤ a.length) :
    (a.take offset ++ l ++ a.drop (offset + l.length)).length =
      max a.length (offset + l.length) := by
  simp only [length_append, length_take, length_drop]
  omega

theorem bytesOf_take : bytesOf (a.take n) p = if p < n then bytesOf a p else 0 := by
  simp only [bytesOf, getD_eq_getElem?_getD, getElem?_take]
  split <;> rfl

theorem slice_bytesOf (offset count : Nat) :
    slice (bytesOf a) offset (min count (a.length - offset)) = (a.drop offset).take count := by
  refine ext_getElem (by simp [slice]) fun j h1 h2 => ?_
  simp only [slice, length_map, length_range] at h1
  simp only [slice, getElem_map, getElem_range, getElem_take, getElem_drop,
    bytesOf, getD_eq_getElem?_getD]
  rw [getElem?_eq_getElem (by omega), getD_some]

/-! ## The refinement -/

/-- The cache is coherent with the array. -/
structure CachedFile.Refines (node : Vnode) (m : Nat → Option Nat) (f : CachedFile)
    (a : List UInt8) : Prop where
  coherent : Coherent node m (bytesOf a) f.size f.cache
  length : a.length = f.size

theorem CachedFile.refines_init (disk : Nat → Nat → UInt8) {size : Nat}
    (hluck : ∀ x ∈ luck, x.ok = true)
    (hrea : ∀ s, s * node.sectorSize < size → ∃ e, node.bmap s false = .ok e) :
    Refines node m ⟨.init disk luck, size⟩ (fileOnDisk node m disk size) := by
  have hbt : ∀ p, bytesOf (fileOnDisk node m disk size) p =
      if p < size then sectorByte m disk (p / node.sectorSize) (p % node.sectorSize) else 0 := by
    intro p
    rw [bytesOf, fileOnDisk, getD_eq_getElem?_getD, getElem?_map]
    split
    · next hp => rw [getElem?_range hp]; rfl
    · next hp => rw [getElem?_eq_none (by simpa using hp)]; rfl
  refine ⟨⟨nofun, fun {p lba} hp hm _ => ?_, fun {p} hm => ?_, fun {p} hp => ?_,
    fun {s} => hrea s, hluck, rfl⟩, by simp [fileOnDisk]⟩
  · rw [hbt, if_pos hp, sectorByte, hm]
    rfl
  · rw [hbt, sectorByte, hm, elim_none, ite_self]
  · rw [hbt, if_neg (not_lt.mpr hp)]

/-- **Step lemma.** -/
theorem CachedFile.step_refines (hmap : SectorMap node m) (hv : sectorSizeValid node)
    (h8 : PAGE_SIZE / node.sectorSize ≤ 8) (h : f.Refines node m a)
    (hst : Fires (step node) f x f') : ∃ a', PlainStep node m a x a' ∧ f'.Refines node m a' := by
  obtain ⟨op, out⟩ := x
  simp only [Fires] at hst
  cases op with
  | write bytes offset =>
    simp only [step] at hst
    split at hst
    · next hoff =>
      obtain ⟨r, c', hcl, hr⟩ := h.coherent.fcacheWrite hmap hv h8 bytes hoff
      rw [hcl] at hst
      rcases hr with ⟨n, hn, rfl, hfu, h'⟩ | ⟨⟨e, rfl⟩, humap, h'⟩
      · cases hst
        have hlen : (bytes.take n).length = n := by simpa using hn
        have hle : offset ≤ a.length := h.length ▸ hoff
        refine ⟨_, .write hle hn hfu, ?_, ?_⟩
        · have hspl := bytesOf_splice (l := bytes.take n) hle
          rw [hlen] at hspl
          rw [hspl]
          exact h'
        · have hspl := length_splice (l := bytes.take n) hle
          rw [hlen] at hspl
          rw [hspl, h.length]
      · cases hst
        exact ⟨a, .refused humap, h', h.length⟩
    · cases hst
  | read count offset =>
    obtain ⟨c', hcl, h'⟩ := h.coherent.fcacheRead hmap hv count offset
    rw [← h.length, slice_bytesOf] at hcl
    simp only [step, ← h.length, hcl] at hst
    obtain ⟨rfl, rfl⟩ := hst
    exact ⟨a, .read, h.length ▸ h', rfl⟩
  | truncate size =>
    simp only [step] at hst
    split at hst
    · next hle =>
      cases hst
      have hle' : size ≤ a.length := h.length ▸ hle
      refine ⟨_, .truncate hle', ?_, by simpa using hle'⟩
      have hby : bytesOf (a.take size) = fun p => if p < size then bytesOf a p else 0 :=
        funext fun p => bytesOf_take
      rw [hby]
      exact h.coherent.fcacheTruncate hle
    · cases hst
  | writeback =>
    obtain ⟨c', hcl, h'⟩ := h.coherent.writebackLocked hmap hv
    simp only [step, fcacheWriteback, hcl] at hst
    obtain ⟨rfl, rfl⟩ := hst
    exact ⟨a, .writeback, h', h.length⟩
  | reclaim visits =>
    cases hst
    exact ⟨a, .reclaim, h.coherent.fcacheReclaim, h.length⟩

theorem CachedFile.onDisk_of_writeback (hmap : SectorMap node m) (hv : sectorSizeValid node)
    {f : CachedFile} (h : f.Refines node m a) (hst : f.step node .writeback = some (out, f')) :
    out = .done (.ok ()) ∧ OnDisk node m f'.cache.disk a := by
  obtain ⟨c', hcl, h'⟩ := h.coherent.writebackLocked hmap hv
  have h0 := writebackLocked_clean h.coherent.counted hcl
  simp only [step, fcacheWriteback, hcl] at hst
  obtain ⟨rfl, rfl⟩ := hst
  exact ⟨rfl, fun p lba hp hm => h'.stored_of_numDirty_eq_zero h0 (h.length ▸ hp) hm⟩

/-- In every run of the calls on a freshly mounted file, without I/O or memory error, each call
has the result it has on the array the disk held at the start, and a writeback at the end of the
run brings the array to the disk. -/
def RefinesArray (node : Vnode) (m : Nat → Option Nat) : Prop :=
  ∀ (disk : Nat → Nat → UInt8) (luck : List Chance) (size : Nat) (as : List (FileOp × FileOut))
    (f : CachedFile), (∀ x ∈ luck, x.ok = true) →
    (∀ s, s * node.sectorSize < size → ∃ e, node.bmap s false = .ok e) →
    Run (Fires (CachedFile.step node)) ⟨.init disk luck, size⟩ as f →
    ∃ a, Run (PlainStep node m) (fileOnDisk node m disk size) as a ∧ a.length = f.size ∧
      ∀ out f', f.step node .writeback = some (out, f') →
        out = .done (.ok ()) ∧ OnDisk node m f'.cache.disk a

/-- **The file cache refines a byte array**, on every volume whose pages have at most eight
sectors. -/
theorem fcache_refines_array (node : Vnode) (m : Nat → Option Nat) (hmap : SectorMap node m)
    (hv : sectorSizeValid node = true) (h8 : PAGE_SIZE / node.sectorSize ≤ 8) :
    RefinesArray node m := by
  intro disk luck size as f hluck hreach hrun
  obtain ⟨a, hplain, h⟩ := hrun.simulates (CachedFile.refines_init disk hluck hreach)
    (CachedFile.step_refines hmap hv h8)
  exact ⟨a, hplain, h.length, fun out f' hstep => CachedFile.onDisk_of_writeback hmap hv h hstep⟩

/-! ## Block devices -/

/-- `dev_bmap` of a volume of `sectorCount` sectors. -/
def devBmap (sectorCount sector : Nat) (_create : Bool) : Except Errno FcacheExtent :=
  if sectorCount ≤ sector then .error Errno.EIO
  else .ok ⟨sector, sectorCount - sector, true⟩

/-- The vnode of `fcache_dev_create`. -/
def devNode (sectorSize sectorCount : Nat) : Vnode := ⟨sectorSize, devBmap sectorCount, false⟩

def devMap (sectorCount s : Nat) : Option Nat := if s < sectorCount then some s else none

theorem sectorMap_devNode (sectorSize sectorCount : Nat) :
    SectorMap (devNode sectorSize sectorCount) (devMap sectorCount) where
  inj h h' := by
    simp only [devMap, ite_none_right_eq_some, some.injEq] at h h'
    omega
  count h := by
    simp only [devNode, devBmap] at h
    split at h <;> cases h
    simp only
    omega
  mapped h _ j hj := by
    simp only [devNode, devBmap] at h
    split at h <;> cases h
    simp only at hj
    rw [devMap, if_pos (by omega)]
  hole h hm := by
    simp only [devNode, devBmap] at h
    split at h <;> cases h
    cases hm
  total h _ := by
    simp only [devMap, ite_none_right_eq_some] at h
    exact ⟨_, if_neg (by omega)⟩

theorem reach_devNode (hsz : size ≤ sectorCount * sectorSize) (h : s * sectorSize < size) :
    ∃ e, (devNode sectorSize sectorCount).bmap s false = .ok e := by
  have hlt : s < sectorCount := Nat.lt_of_mul_lt_mul_right (h.trans_le hsz)
  exact ⟨_, if_neg (not_le.mpr hlt)⟩

theorem reachable_devNode (hv : sectorSizeValid (devNode sectorSize sectorCount) = true)
    (hsz : size ≤ sectorCount * sectorSize) :
    Reachable (devNode sectorSize sectorCount) size := by
  intro index k hk
  obtain ⟨e, he⟩ := reach_devNode hsz (sector_lt hv hk)
  exact ⟨e, he, (sectorMap_devNode sectorSize sectorCount).count he⟩

/-- Two bytes across a sector boundary of a device of eight sectors of 512 bytes, written back,
evicted and read again. -/
theorem fcache_refines_array_dev :
    ∃ (a : List UInt8) (f : CachedFile), Run (PlainStep (devNode 512 8) (devMap 8))
        (fileOnDisk (devNode 512 8) (devMap 8) (fun _ _ => 0) 4096)
        [(.write [7, 8] 1023, .written (.ok 2)), (.writeback, .done (.ok ())),
          (.reclaim [0, 0], .done (.ok ())), (.read 3 1022, .read (.ok [0, 7, 8]))] a ∧
      a.length = f.size ∧ ∀ out f', f.step (devNode 512 8) .writeback = some (out, f') →
        out = .done (.ok ()) ∧ OnDisk (devNode 512 8) (devMap 8) f'.cache.disk a := by
  have hread : (trace (CachedFile.step (devNode 512 8)) ⟨.init (fun _ _ => 0) [], 4096⟩
      [.write [7, 8] 1023, .writeback, .reclaim [0, 0], .read 3 1022]).map (·.1) =
      some [(.write [7, 8] 1023, .written (.ok 2)), (.writeback, .done (.ok ())),
        (.reclaim [0, 0], .done (.ok ())), (.read 3 1022, .read (.ok [0, 7, 8]))] := by
    decide +kernel
  obtain ⟨⟨as, f⟩, htrace, rfl⟩ := map_eq_some_iff.mp hread
  obtain ⟨a, hrun, hrest⟩ := fcache_refines_array (devNode 512 8) (devMap 8)
    (sectorMap_devNode 512 8) (by decide) (by decide) (fun _ _ => 0) [] 4096 _ f (by simp)
    (fun s hs => reach_devNode (by decide) hs) (Run.of_trace htrace).1
  exact ⟨a, f, hrun, hrest⟩

/-- A device with sixteen sectors in a page: the byte written to the ninth is gone once the page
was written back and evicted. -/
theorem small_sectors_lose_writes :
    SectorMap (devNode 256 16) (devMap 16) ∧ sectorSizeValid (devNode 256 16) = true ∧
      ¬ RefinesArray (devNode 256 16) (devMap 16) := by
  refine ⟨sectorMap_devNode 256 16, by decide, fun h => ?_⟩
  have hread : (trace (CachedFile.step (devNode 256 16)) ⟨.init (fun _ _ => 0) [], 4096⟩
      [.write [1] 2048, .writeback, .reclaim [0, 0], .read 1 2048]).map (·.1) =
      some [(.write [1] 2048, .written (.ok 1)), (.writeback, .done (.ok ())),
        (.reclaim [0, 0], .done (.ok ())), (.read 1 2048, .read (.ok [0]))] := by
    decide +kernel
  obtain ⟨⟨as, f⟩, htrace, has⟩ := map_eq_some_iff.mp hread
  obtain ⟨a, hrun, -⟩ := h (fun _ _ => 0) [] 4096 as f (by simp)
    (fun s hs => reach_devNode (by decide) hs) (Run.of_trace htrace).1
  rw [show as = _ from has] at hrun
  generalize fileOnDisk (devNode 256 16) (devMap 16) (fun _ _ => 0) 4096 = a0 at hrun
  rcases hrun with _ | ⟨⟨hoffset, -, -⟩, _ | ⟨⟨⟩, _ | ⟨⟨⟩, _ | ⟨hlast, -⟩⟩⟩⟩
  generalize hout : FileOut.read (.ok [0]) = out at hlast
  cases hlast
  simp [hoffset] at hout

end Vex.Fs
