import Vex.Lib.Run
import Vex.Mm.KmallocCalls

/-! The kernel heap and its users. A state is the heap with the allocations that are live, each
with the size it was asked for; a step is one of the calls, with a pointer that is live, or a store
of the owner of an allocation. -/

namespace Vex.Mm.Kmalloc

open Function

open Lib (Run Under Fires trace)

structure World where
  heap : Heap
  /-- The sizes asked for, by the pointers returned. -/
  live : Nat → Option Nat

/-- The calls, with the answers of the allocators below, and the stores in between. -/
inductive HeapOp
  | kmalloc (size : Nat) (supply : Supply)
  | krealloc (ptr : Option Nat) (size : Nat) (supply : Supply)
  | kfree (ptr : Option Nat)
  | store (address : Nat) (value : UInt8)

/-- The live allocations without one that was given back. -/
def release (live : Nat → Option Nat) : Option Nat → Nat → Option Nat
  | none => live
  | some ptr => update live ptr none

/-- The live allocations with one that was returned. -/
def grant (live : Nat → Option Nat) (size : Nat) : Option Nat → Nat → Option Nat
  | none => live
  | some ptr => update live ptr (some size)

/-- One step; none if the call does not return. -/
def heapStep (w : World) : HeapOp → Option (Option Nat × World)
  | .kmalloc size supply =>
    (kmalloc w.heap size supply).map fun r => (r.1, ⟨r.2, grant w.live size r.1⟩)
  | .krealloc ptr size supply =>
    (krealloc w.heap ptr size supply).map fun r =>
      -- a call that fails gives nothing back, one for no bytes does
      let live := if size = 0 ∨ r.1.isSome then release w.live ptr else w.live
      (r.1, ⟨r.2, grant live size r.1⟩)
  | .kfree ptr => (kfree w.heap ptr).map fun h => (none, ⟨h, release w.live ptr⟩)
  | .store address value =>
    some (none, { w with heap.bytes := update w.heap.bytes address value })

/-- Sizes of a `size_t`, pointers that are live, and stores into what is live. -/
def World.Allowed (w : World) : HeapOp → Prop
  | .kmalloc size _ => size < SIZE_RANGE
  | .krealloc ptr size _ => size < SIZE_RANGE ∧ ∀ p, ptr = some p → ∃ n, w.live p = some n
  | .kfree ptr => ∀ p, ptr = some p → ∃ n, w.live p = some n
  | .store address _ => ∃ a n, w.live a = some n ∧ a ≤ address ∧ address < a + n

/-- Rounding the size up does not wrap, or memory is short before that matters. -/
def World.Fits (w : World) : HeapOp → Prop
  | .kmalloc size supply | .krealloc none size supply => w.heap.Fits size supply
  | .krealloc (some _) size supply =>
    size ≤ SIZE_RANGE - MALLOC_ALIGNMENT ∧
      (size ≤ SIZE_RANGE - PAGE_SIZE ∨ (slabAlloc w.heap supply).1 = none)
  | .kfree _ | .store .. => True

/-- Every live allocation but one keeps its bytes. -/
def Spares (w w' : World) (ptr : Option Nat) : Prop :=
  ∀ a n, w.live a = some n → ptr ≠ some a → ∀ i < n,
    w'.heap.bytes (a + i) = w.heap.bytes (a + i)

/-- What a call promises of its result. -/
def Delivers (w w' : World) : HeapOp → Option Nat → Prop
  | .kmalloc size _, r | .krealloc none size _, r =>
    Spares w w' none ∧ ∀ a, r = some a → w'.live a = some size ∧ ∀ i < size,
      w'.heap.bytes (a + i) = 0
  | .krealloc (some ptr) size _, some a =>
    Spares w w' (some ptr) ∧ w'.live a = some size ∧ ∀ n, w.live ptr = some n →
      ∀ i < min n size, w'.heap.bytes (a + i) = w.heap.bytes (ptr + i)
  | .krealloc (some ptr) size _, none =>
    Spares w w' (some ptr) ∧ (size ≠ 0 → w'.live = w.live ∧ Spares w w' none)
  | .kfree ptr, _ => Spares w w' ptr
  | .store address value, _ =>
    w'.heap.bytes address = value ∧ ∀ x, x ≠ address → w'.heap.bytes x = w.heap.bytes x

/-- The blocks tile the heap, and every live pointer is the start of a block in use that is at
least as long as was asked for. -/
structure Sound (w : World) (l : List Nat) : Prop where
  tiled : Tiled w.heap l
  live : ∀ a n, w.live a = some n → ∃ m, n ≤ m ∧ UsedAt w.heap l a m

/-- A step returns, to a sound state and with what it promises. -/
def Returns (w : World) (op : HeapOp) : Prop :=
  ∃ r w' l', heapStep w op = some (r, w') ∧ Sound w' l' ∧ Delivers w w' op r

variable {w : World} {l : List Nat} {size : Nat} {supply : Supply}

theorem release_some (h : release live (some ptr) a = some n) : a ≠ ptr ∧ live a = some n := by
  rw [release, update_apply] at h
  split at h
  case isTrue => cases h
  case isFalse hne => exact ⟨hne, h⟩

theorem grant_some (h : grant live size (some ptr) a = some n) :
    a = ptr ∧ n = size ∨ live a = some n := by
  rw [grant, update_apply] at h
  split at h
  case isTrue heq => exact .inl ⟨heq, (Option.some.inj h).symm⟩
  case isFalse => exact .inr h

namespace Sound

section
variable (hs : Sound w l)
include hs

theorem disjoint (ha : w.live a = some n) (ha' : w.live a' = some n') (hne : a ≠ a') :
    a + n ≤ a' ∨ a' + n' ≤ a := by
  obtain ⟨m, hm, hus⟩ := hs.live a n ha
  obtain ⟨m', hm', hus'⟩ := hs.live a' n' ha'
  have := hs.tiled.usedAt_disjoint hus hus' hne
  omega

/-- A live allocation is apart from a block that is in use later and was not before. -/
theorem apart (ht' : Tiled h' l') (ha : w.live a = some n)
    (hkeep : ∀ m, UsedAt w.heap l a m → UsedAt h' l' a m) (hb : UsedAt h' l' b k)
    (hnew : ∀ m, ¬UsedAt w.heap l b m) : a + n ≤ b ∨ b + k ≤ a := by
  obtain ⟨m, hm, hus⟩ := hs.live a n ha
  have hne : a ≠ b := by
    rintro rfl
    exact hnew m hus
  have := ht'.usedAt_disjoint (hkeep m hus) hb hne
  omega

theorem allocates (ht' : Tiled h' l') (hr : Allocates w.heap l size r h' l') :
    Sound ⟨h', grant w.live size r⟩ l' ∧ Spares w ⟨h', grant w.live size r⟩ none ∧
      ∀ a, r = some a → grant w.live size r a = some size ∧ ∀ i < size, h'.bytes (a + i) = 0 := by
  cases hr with
  | failed hby hus =>
    refine ⟨⟨ht', fun a n ha => ?_⟩, fun a n _ _ i _ => congrFun hby _, nofun⟩
    obtain ⟨m, hm, hlive⟩ := hs.live a n ha
    exact ⟨m, hm, (hus a m).mpr hlive⟩
  | @block b k _ _ hgai hk hby =>
    have hb : UsedAt h' l' b k := (hgai.used b k).mpr (.inr ⟨rfl, rfl⟩)
    refine ⟨⟨ht', fun a n ha => ?_⟩, fun a n ha _ i hi => ?_, ?_⟩
    · rcases grant_some ha with ⟨rfl, rfl⟩ | ha
      · exact ⟨k, hk, hb⟩
      · obtain ⟨m, hm, hlive⟩ := hs.live a n ha
        exact ⟨m, hm, (hgai.used a m).mpr (.inl hlive)⟩
    · have := hs.apart ht' ha (fun m hm => (hgai.used a m).mpr (.inl hm)) hb hgai.new
      exact (hby _).trans (if_neg (by omega))
    · rintro a ⟨⟩
      refine ⟨update_self .., fun i hi => ?_⟩
      rw [hby, if_pos (by omega)]

theorem kmalloc (hsz : size < SIZE_RANGE) (hfits : w.heap.Fits size supply) :
    Returns w (.kmalloc size supply) := by
  obtain ⟨r, h', l', hcl, ht', hr⟩ := kmalloc_spec hs.tiled hsz hfits
  obtain ⟨hs', hspares, h0⟩ := hs.allocates ht' hr
  exact ⟨r, ⟨h', grant w.live size r⟩, l', by rw [heapStep, hcl, Option.map_some], hs', hspares,
    h0⟩

theorem kreallocNull (hsz : size < SIZE_RANGE) (hfits : w.heap.Fits size supply) :
    Returns w (.krealloc none size supply) := by
  obtain ⟨r, h', l', hcl, ht', hr⟩ := kmalloc_spec hs.tiled hsz hfits
  obtain ⟨hs', hspares, h0⟩ := hs.allocates ht' hr
  refine ⟨r, ⟨h', grant w.live size r⟩, l', ?_, hs', hspares, h0⟩
  rw [heapStep, krealloc, hcl]
  simp [release]

theorem frees (hptr : w.live ptr = some n) :
    ∃ h' l', Kmalloc.kfree w.heap (some ptr) = some h' ∧
      Sound ⟨h', release w.live (some ptr)⟩ l' ∧ h'.bytes = w.heap.bytes := by
  obtain ⟨m, -, hus⟩ := hs.live ptr n hptr
  obtain ⟨h', l', hcl, ht', hby, hus'⟩ := kfree_spec hs.tiled hus
  refine ⟨h', l', hcl, ⟨ht', fun a k ha => ?_⟩, hby⟩
  obtain ⟨hne, ha⟩ := release_some ha
  obtain ⟨m', hm', hlive⟩ := hs.live a k ha
  exact ⟨m', hm', (hus' a m').mpr ⟨hlive, hne⟩⟩

theorem kfree (hptr : ∀ p, ptr = some p → ∃ n, w.live p = some n) : Returns w (.kfree ptr) := by
  cases ptr with
  | none => exact ⟨none, w, l, rfl, hs, fun _ _ _ _ _ _ => rfl⟩
  | some ptr =>
    obtain ⟨n, hn⟩ := hptr ptr rfl
    obtain ⟨h', l', hcl, hs', hby⟩ := hs.frees hn
    exact ⟨none, ⟨h', release w.live (some ptr)⟩, l', by rw [heapStep, hcl, Option.map_some], hs',
      fun a k _ _ i _ => congrFun hby _⟩

theorem krealloc (hptr : w.live ptr = some n) (hsz : size ≤ SIZE_RANGE - MALLOC_ALIGNMENT)
    (hfits : size ≤ SIZE_RANGE - PAGE_SIZE ∨ (slabAlloc w.heap supply).1 = none) :
    Returns w (.krealloc (some ptr) size supply) := by
  rcases Nat.eq_zero_or_pos size with rfl | hpos
  · obtain ⟨h', l', hcl, hs', hby⟩ := hs.frees hptr
    refine ⟨none, ⟨h', release w.live (some ptr)⟩, l', ?_, hs',
      fun a k _ _ i _ => congrFun hby _, fun hne => absurd rfl hne⟩
    rw [heapStep, Kmalloc.krealloc, hcl]
    rfl
  · obtain ⟨m, hm, hus⟩ := hs.live ptr n hptr
    obtain ⟨r, h', l', hcl, ht', hr⟩ := krealloc_spec hs.tiled hus hpos.ne' hsz hfits
    cases hr with
    | failed hby hus' =>
      refine ⟨none, ⟨h', w.live⟩, l', ?_, ⟨ht', fun a k ha => ?_⟩,
        fun a k _ _ i _ => congrFun hby _, fun _ => ⟨rfl, fun a k _ _ i _ => congrFun hby _⟩⟩
      · rw [heapStep, hcl]
        simp [grant, hpos.ne']
      · obtain ⟨k', hk', hlive⟩ := hs.live a k ha
        exact ⟨k', hk', (hus' a k').mpr hlive⟩
    | kept hle =>
      refine ⟨some ptr, ⟨w.heap, grant (release w.live (some ptr)) size (some ptr)⟩, l, ?_,
        ⟨hs.tiled, fun a k ha => ?_⟩, fun _ _ _ _ _ _ => rfl, update_self ..,
        fun _ _ _ _ => rfl⟩
      · rw [heapStep, hcl]
        simp
      · rcases grant_some ha with ⟨rfl, rfl⟩ | ha
        · exact ⟨m, hle, hus⟩
        · exact hs.live a k (release_some ha).2
    | @moved b k _ _ hus' hnew hk hcp hout =>
      have hb : UsedAt h' l' b k := (hus' b k).mpr (.inr ⟨rfl, rfl⟩)
      refine ⟨some b, ⟨h', grant (release w.live (some ptr)) size (some b)⟩, l', ?_,
        ⟨ht', fun a j ha => ?_⟩, fun a j ha hne i hi => ?_, update_self ..,
        fun n' hn' i hi => ?_⟩
      · rw [heapStep, hcl]
        simp
      · rcases grant_some ha with ⟨rfl, rfl⟩ | ha
        · exact ⟨k, hk, hb⟩
        obtain ⟨hne, ha⟩ := release_some ha
        obtain ⟨j', hj', hlive⟩ := hs.live a j ha
        exact ⟨j', hj', (hus' a j').mpr (.inl ⟨hlive, hne⟩)⟩
      · have hane : a ≠ ptr := by
          rintro rfl
          exact hne rfl
        have := hs.apart ht' ha (fun m hm => (hus' a m).mpr (.inl ⟨hm, hane⟩)) hb hnew
        exact hout _ (by omega)
      · rw [hptr] at hn'
        cases hn'
        exact hcp i (by omega)

/-- **The step.** Every call that is allowed and fits returns what it promises. -/
theorem returns (halw : w.Allowed op) (hfits : w.Fits op) : Returns w op := by
  cases op with
  | kmalloc size supply => exact hs.kmalloc halw hfits
  | krealloc ptr size supply =>
    cases ptr with
    | none => exact hs.kreallocNull halw.1 hfits
    | some ptr =>
      obtain ⟨n, hn⟩ := halw.2 ptr rfl
      exact hs.krealloc hn hfits.1 hfits.2
  | kfree ptr => exact hs.kfree halw
  | store address value =>
    exact ⟨none, _, l, rfl, ⟨hs.tiled.setBytes _, hs.live⟩, update_self ..,
      fun x hx => update_of_ne hx ..⟩

end

end Sound

/-- The heap at boot, with nothing allocated. -/
def bootWorld (bytes : Nat → UInt8) : World := ⟨heapInit bytes, fun _ => none⟩

theorem sound_boot (bytes : Nat → UInt8) : Sound (bootWorld bytes) [] where
  tiled :=
    { head := rfl
      tail := rfl
      chain := rfl
      page := show HEAP_REGION_BASE % PAGE_SIZE = 0 by decide
      le := show HEAP_REGION_BASE ≤ HEAP_REGION_BASE + HEAP_REGION_SIZE from Nat.le_add_right ..
      mapped := fun _ hlow hhi => absurd hhi (Nat.not_lt_of_le hlow) }
  live := nofun

/-- **The kernel heap.** In every state reached by calls whose sizes do not wrap, the blocks tile
the heap, every live pointer is the start of a block in use that is long enough, live allocations
do not meet, and every further call returns and delivers what it promises. -/
theorem live_allocations_kept {bytes : Nat → UInt8} {w : World} {ops : List (HeapOp × Option Nat)}
    (hrun : Run (Under (fun w a => w.Allowed a.1 ∧ w.Fits a.1) (Fires heapStep))
      (bootWorld bytes) ops w) :
    (∃ l, Sound w l) ∧
      (∀ a n a' n', w.live a = some n → w.live a' = some n' → a ≠ a' →
        a + n ≤ a' ∨ a' + n' ≤ a) ∧
      ∀ op, w.Allowed op → w.Fits op →
        ∃ r w', heapStep w op = some (r, w') ∧ Delivers w w' op r := by
  obtain ⟨l, hs⟩ : ∃ l, Sound w l := by
    refine hrun.invariant (I := fun w => ∃ l, Sound w l) ?_ ⟨[], sound_boot bytes⟩
    rintro w ⟨op, r⟩ w' ⟨l, hs⟩ ⟨⟨hallowed, hfits⟩, hstep⟩
    obtain ⟨r', w'', l', hstep', hs', -⟩ := hs.returns hallowed hfits
    cases hstep'.symm.trans hstep
    exact ⟨l', hs'⟩
  refine ⟨⟨l, hs⟩, fun a n a' n' => hs.disjoint, fun op hallowed hfits => ?_⟩
  obtain ⟨r, w', -, hstep, -, hdelivers⟩ := hs.returns hallowed hfits
  exact ⟨r, w', hstep, hdelivers⟩

/-- A block of eight bytes is written to, grows and is copied on the way. -/
theorem live_allocations_kept_grow :
    ∃ w, Run (Under (fun w a => w.Allowed a.1 ∧ w.Fits a.1) (Fires heapStep))
        (bootWorld fun _ => 0)
        [(.kmalloc 8 ⟨[some 1, some 2], [true]⟩, some HEAP_REGION_BASE),
          (.store HEAP_REGION_BASE 7, none),
          (.krealloc (some HEAP_REGION_BASE) 100 ⟨[some 3], []⟩, some (HEAP_REGION_BASE + 8))] w ∧
      w.heap.bytes (HEAP_REGION_BASE + 8) = 7 ∧ ∃ l, Sound w l := by
  refine Run.exists_and ⟨_, .cons ⟨⟨?_, ?_⟩, rfl⟩ (.cons ⟨⟨?_, trivial⟩, rfl⟩
    (.cons ⟨⟨⟨?_, ?_⟩, ?_, ?_⟩, rfl⟩ .nil)), rfl⟩ fun w hrun _ => (live_allocations_kept hrun).1
  · exact (by decide : 8 < SIZE_RANGE)
  · exact .inl (by decide)
  · exact ⟨HEAP_REGION_BASE, 8, rfl, by decide, by decide⟩
  · decide
  · rintro p ⟨⟩
    exact ⟨8, rfl⟩
  · decide
  · exact .inl (by decide)

/-- The largest size is rounded to zero: the block of eight bytes is returned for it, and the heap
is sound no more. -/
theorem krealloc_size_max_keeps_short_block :
    ∃ w, Run (Under (fun w a => w.Allowed a.1) (Fires heapStep)) (bootWorld fun _ => 0)
        [(.kmalloc 8 ⟨[some 1, some 2], [true]⟩, some HEAP_REGION_BASE),
          (.krealloc (some HEAP_REGION_BASE) (SIZE_RANGE - 1) ⟨[], []⟩,
            some HEAP_REGION_BASE)] w ∧
      w.heap.extent 1 = some (HEAP_REGION_BASE, 8, true) ∧
      w.live HEAP_REGION_BASE = some (SIZE_RANGE - 1) ∧ ¬∃ l, Sound w l := by
  refine ⟨_, .cons ⟨?_, rfl⟩ (.cons ⟨⟨?_, ?_⟩, rfl⟩ .nil), rfl, rfl, ?_⟩
  · exact (by decide : 8 < SIZE_RANGE)
  · decide
  · rintro p ⟨⟩
    exact ⟨8, rfl⟩
  rintro ⟨l, hs⟩
  obtain ⟨m, hm, p, hp, he⟩ := hs.live HEAP_REGION_BASE (SIZE_RANGE - 1) rfl
  obtain ⟨-, -, hhigh⟩ := hs.tiled.extent_mem hp he
  have hend := hs.tiled.le
  simp only [SIZE_RANGE, HEAP_REGION_SIZE] at *
  omega

end Vex.Mm.Kmalloc
