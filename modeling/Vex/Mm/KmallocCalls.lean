import Vex.Mm.KmallocHeap

/-! What the functions of the kernel heap do, in terms of its blocks in use: an allocation adds
one, freeing takes one away, and splits and merges change none of them. -/

namespace Vex.Mm.Kmalloc

open Function List Option Heap

variable {h : Heap} {l : List Nat} {p size : Nat} {supply : Supply}

/-! ## Sizes -/

theorem alignCeil_eight (hsz : size ≤ SIZE_RANGE - PAGE_SIZE) :
    size ≤ alignCeil size MALLOC_ALIGNMENT ∧
      alignCeil size MALLOC_ALIGNMENT ≤ SIZE_RANGE - PAGE_SIZE ∧
      alignCeil (alignCeil size MALLOC_ALIGNMENT) MALLOC_ALIGNMENT =
        alignCeil size MALLOC_ALIGNMENT := by
  simp only [alignCeil, MALLOC_ALIGNMENT, SIZE_RANGE, PAGE_SIZE] at *
  omega

theorem le_alignCeil (hsz : size ≤ SIZE_RANGE - MALLOC_ALIGNMENT) :
    size ≤ alignCeil size MALLOC_ALIGNMENT ∧
      alignCeil size MALLOC_ALIGNMENT ≤ SIZE_RANGE - MALLOC_ALIGNMENT ∧
      alignCeil size MALLOC_ALIGNMENT < SIZE_RANGE := by
  simp only [alignCeil, MALLOC_ALIGNMENT, SIZE_RANGE] at *
  omega

theorem pageCount_spec (hsz : size ≤ SIZE_RANGE - PAGE_SIZE) (hpos : 0 < size) :
    0 < pageCount size ∧ size ≤ pageCount size * PAGE_SIZE := by
  simp only [pageCount, alignCeil, SIZE_RANGE, PAGE_SIZE] at *
  omega

/-! ## Looking for blocks -/

namespace Tiled

section
variable (ht : Tiled h l)
include ht

theorem seekBlock_eq (found : Memblock → Bool) :
    seekBlock h found = some (l.find? fun p => (h.blocks p).any found) := by
  have hlen := ht.chain.length_le
  rw [seekBlock, ht.head]
  exact ht.chain.seek_eq found (by omega)

theorem extent_mem (hp : p ∈ l) (he : h.extent p = some (a, n, used)) :
    HEAP_REGION_BASE ≤ a ∧ 0 < n ∧ a + n ≤ h.heapEnd := by
  obtain ⟨b, hb, hlow, hpos, hhi⟩ := ht.chain.mem hp
  rw [extent, hb] at he
  cases he
  exact ⟨hlow, hpos, hhi⟩

theorem extent_disjoint (hp : p ∈ l) (hq : q ∈ l) (hne : p ≠ q) 
    (he : h.extent p = some (a, n, used))
    (he' : h.extent q = some (a', n', used')) : a + n ≤ a' ∨ a' + n' ≤ a := by
  obtain ⟨b, hb, rfl, rfl, -⟩ := block_of_extent he
  obtain ⟨c, hc, rfl, rfl, -⟩ := block_of_extent he'
  exact ht.chain.disjoint hp hq hne hb hc

theorem eq_of_address (hp : p ∈ l) (hq : q ∈ l) 
    (he : h.extent p = some (a, n, used))
    (he' : h.extent q = some (a, n', used')) : p = q := by
  by_contra hne
  have hpos := (ht.extent_mem hp he).2.1
  have hpos' := (ht.extent_mem hq he').2.1
  have := ht.extent_disjoint hp hq hne he he'
  omega

theorem findFreeBlock_spec (size : Nat) :
    findFreeBlock h size = some none ∨ ∃ p ∈ l, ∃ a n, findFreeBlock h size = some (some p) ∧
      h.extent p = some (a, n, false) ∧ size ≤ n := by
  rw [findFreeBlock, ht.seekBlock_eq]
  cases hfd : l.find? fun p => (h.blocks p).any fun b => !b.used && decide (b.length ≥ size) with
  | none => exact .inl rfl
  | some p =>
    have hmem := mem_of_find?_eq_some hfd
    obtain ⟨b, hb, -⟩ := ht.chain.mem hmem
    obtain ⟨hus, hlen⟩ : b.used = false ∧ size ≤ b.length := by
      simpa [hb] using find?_some hfd
    exact .inr ⟨p, hmem, b.address, b.length, rfl, by rw [extent, hb, ← hus]; rfl, hlen⟩

theorem findBlockAt_eq (hp : p ∈ l) (he : h.extent p = some (a, n, used))
    : findBlockAt h a = some (some p) := by
  rw [findBlockAt, ht.seekBlock_eq]
  cases hfd : l.find? fun p => (h.blocks p).any fun b => b.address == a with
  | none =>
    obtain ⟨b, hb, rfl, -⟩ := block_of_extent he
    simpa [hb] using find?_eq_none.mp hfd p hp
  | some q =>
    have hmem := mem_of_find?_eq_some hfd
    obtain ⟨c, hc, -⟩ := ht.chain.mem hmem
    have hadr : c.address = a := by simpa [hc] using find?_some hfd
    have he' : h.extent q = some (a, c.length, c.used) := by rw [extent, hc, ← hadr]; rfl
    rw [ht.eq_of_address hp hmem he he']

end

end Tiled

/-! ## Blocks in use -/

/-- The same blocks are in use. -/
def SameUsed (h : Heap) (l : List Nat) (h' : Heap) (l' : List Nat) : Prop :=
  ∀ a n, UsedAt h' l' a n ↔ UsedAt h l a n

/-- A block in use has been added. -/
structure Gains (h : Heap) (l : List Nat) (h' : Heap) (l' : List Nat) (a n : Nat) : Prop where
  used : ∀ x m, UsedAt h' l' x m ↔ UsedAt h l x m ∨ x = a ∧ m = n
  new : ∀ m, ¬UsedAt h l a m

theorem Tiled.usedAt_disjoint (ht : Tiled h l) (hn : UsedAt h l a n)
    (hn' : UsedAt h l a' n') (hne : a ≠ a') : a + n ≤ a' ∨ a' + n' ≤ a := by
  obtain ⟨p, hp, he⟩ := hn
  obtain ⟨q, hq, he'⟩ := hn'
  refine ht.extent_disjoint hp hq ?_ he he'
  rintro rfl
  rw [he] at he'
  cases he'
  exact hne rfl

theorem Tiled.setBytes (ht : Tiled h l) (bytes : Nat → UInt8) : Tiled { h with bytes := bytes } l :=
  ⟨ht.head, ht.tail, ht.chain, ht.page, ht.le, ht.mapped⟩

/-! ## Growing the heap -/

theorem unmapPages_apply (first i : Nat) (mapped : Nat → Bool) (n : Nat) :
    unmapPages first i mapped n = if first ≤ n ∧ n < first + i then false else mapped n := by
  induction i generalizing mapped with
  | zero => rw [unmapPages, if_neg (by omega)]
  | succ i ih =>
    rw [unmapPages, ih, update_apply]
    split_ifs <;> first | rfl | omega

theorem mapPages_spec (first : Nat) {i left : Nat} {answers : List Bool} {mapped : Nat → Bool} :
    ∃ ok mapped' rest, mapPages first i left answers mapped = (ok, mapped', rest) ∧
      (ok = true → ∀ n, mapped n = true ∨ first + i ≤ n ∧ n < first + i + left → mapped' n = true) ∧
      (ok = false → ∀ n, mapped' n = if first ≤ n ∧ n < first + i then false else mapped n) := by
  induction left generalizing i answers mapped with
  | zero =>
    refine ⟨true, mapped, answers, rfl, fun _ n hn => ?_, nofun⟩
    exact hn.resolve_right (by omega)
  | succ left ih =>
    rw [mapPages]
    split
    case isTrue hmap =>
      obtain ⟨ok, mapped', rest, heq, hok, hfa⟩ :=
        @ih (i + 1) answers.tail (update mapped (first + i) true)
      refine ⟨ok, mapped', rest, heq, fun h n hn => hok h n ?_, fun h n => ?_⟩
      · rw [update_apply]
        split
        case isTrue => exact .inl rfl
        case isFalse => exact hn.imp_right (by omega)
      · rw [hfa h n]
        rcases eq_or_ne n (first + i) with rfl | hne
        · rw [if_pos (by omega), if_neg (by omega), hmap.2]
        · rw [update_of_ne hne]
          split_ifs <;> first | rfl | omega
    case isFalse =>
      exact ⟨false, _, _, rfl, nofun, fun _ n => unmapPages_apply ..⟩

/-- The heap has no more pages than its region, so that a new block ends in it. -/
theorem Tiled.room (ht : Tiled h l) 
    (hle : ¬npages > (HEAP_REGION_BASE + HEAP_REGION_SIZE - h.heapEnd) / PAGE_SIZE) :
    h.heapEnd + npages * PAGE_SIZE ≤ HEAP_REGION_BASE + HEAP_REGION_SIZE := by
  have hend := ht.le
  simp only [PAGE_SIZE] at *
  omega

theorem slabAlloc_some (hal : (slabAlloc h supply).1 = some q) :
    h.blocks q = none := by
  unfold slabAlloc at hal
  cases hslab : supply.slab with
  | nil => simp [hslab] at hal
  | cons answer slab =>
    rw [hslab] at hal
    simpa using (filter_eq_some_iff.mp hal).2

/-- The heap grows by a free block that is long enough, or stays as it is. -/
theorem extendHeap_spec (ht : Tiled h l) (hsz : size ≤ SIZE_RANGE - PAGE_SIZE) (hpos : 0 < size)
    (supply : Supply) :
    ∃ r h' supply' l', extendHeap h size supply = (r, h', supply') ∧ Tiled h' l' ∧
      h'.bytes = h.bytes ∧ SameUsed h l h' l' ∧
      ∀ q, r = some q → q ∈ l' ∧ ∃ a n, h'.extent q = some (a, n, false) ∧ size ≤ n := by
  obtain ⟨hcnt, hlen⟩ := pageCount_spec hsz hpos
  unfold extendHeap
  simp only
  split
  case isTrue => exact ⟨none, h, supply, l, rfl, ht, rfl, fun _ _ => .rfl, nofun⟩
  rename_i hrm
  have hrm := ht.room hrm
  cases hal : slabAlloc h supply with
  | mk answer supply1 =>
    cases answer with
    | none => exact ⟨none, h, supply1, l, rfl, ht, rfl, fun _ _ => .rfl, nofun⟩
    | some q =>
      have hq : h.blocks q = none := slabAlloc_some (by rw [hal])
      obtain ⟨ok, mapped, rest, hmap, hok, hfa⟩ := @mapPages_spec (h.heapEnd / PAGE_SIZE) 0
        (pageCount size) supply1.pages h.mapped
      simp only [hmap]
      cases ok with
      | false =>
        have hmp : mapped = h.mapped := by
          funext n
          rw [hfa rfl n, if_neg (by omega)]
        exact ⟨none, _, _, l, rfl, hmp ▸ ht, rfl, fun _ _ => .rfl, nofun⟩
      | true =>
        obtain ⟨ht', hby, hext⟩ := ht.extend hq hcnt hrm (hok rfl) rfl
        refine ⟨some q, _, _, l ++ [q], rfl, ht', hby, fun a n => ?_, fun q' hq' => ?_⟩
        · have hqm := ht.not_mem hq
          refine exists_congr fun z => ?_
          rw [hext]
          by_cases hzq : z = q
          · simp [hzq, hqm]
          · simp [hzq]
        · cases hq'
          exact ⟨by simp, _, _, by rw [hext, if_pos rfl], hlen⟩

/-! ## Taking a block -/

theorem Tiled.isMapped (ht : Tiled h l) (hlow : HEAP_REGION_BASE ≤ a)
    (hhi : a + n ≤ h.heapEnd) : Mapped h a n := by
  intro i hi
  refine ht.mapped _ ?_ ?_ <;> simp only [HEAP_REGION_BASE, PAGE_SIZE] at * <;> omega

theorem modify_extent (h : Heap) (p z : Nat) (used : Bool) :
    (h.modify p ({ · with used := used })).extent z =
      if z = p then (h.extent z).map fun e => (e.1, e.2.1, used) else h.extent z := by
  rw [extent, modify_blocks, extent]
  split
  case isTrue => rw [Option.map_map, Option.map_map]; rfl
  case isFalse => rfl

/-- What is left of a free block is split off, if it is worth it and there is memory. -/
theorem splitBlock_spec (ht : Tiled h l) (hp : p ∈ l) 
    (he : h.extent p = some (a, n, false)) (hpos : 0 < aligned) (hle : aligned ≤ n)
    (hali : alignCeil aligned MALLOC_ALIGNMENT = aligned) (supply : Supply) :
    ∃ h' l' n', splitBlock h p aligned supply = some h' ∧ Tiled h' l' ∧ p ∈ l' ∧
      h'.bytes = h.bytes ∧ h'.extent p = some (a, n', false) ∧ aligned ≤ n' ∧
      SameUsed h l h' l' := by
  obtain ⟨b, hb, rfl, rfl, hus⟩ := block_of_extent he
  obtain ⟨hlow, -, hhi⟩ := ht.extent_mem hp he
  have hend := ht.le
  have hremainder : (b.length + SIZE_RANGE - aligned) % SIZE_RANGE = b.length - aligned := by
    simp only [SIZE_RANGE, HEAP_REGION_SIZE] at *
    omega
  have hadr : (b.address + aligned) % SIZE_RANGE = b.address + aligned := by
    simp only [SIZE_RANGE, HEAP_REGION_BASE, HEAP_REGION_SIZE] at *
    omega
  have hstay : ∃ h' l' n', some h = some h' ∧ Tiled h' l' ∧ p ∈ l' ∧ h'.bytes = h.bytes ∧
      h'.extent p = some (b.address, n', false) ∧ aligned ≤ n' ∧ SameUsed h l h' l' :=
    ⟨h, l, b.length, rfl, ht, hp, rfl, he, hle, fun _ _ => .rfl⟩
  unfold splitBlock
  rw [hb]
  simp only [hali, hremainder, hadr]
  split
  case isTrue => exact hstay
  rename_i hlar
  cases hal : slabAlloc h supply with
  | mk answer supply1 =>
    cases answer with
    | none => exact hstay
    | some q =>
      have hq : h.blocks q = none := slabAlloc_some (by rw [hal])
      obtain ⟨xs, ys, rfl⟩ := append_of_mem hp
      obtain ⟨ht', hsame, hext⟩ := ht.split hb hq hpos (show 0 < b.length - aligned by omega)
        (by omega) false rfl
      have hqm := ht.not_mem hq
      refine ⟨_, xs ++ [p, q] ++ ys, aligned, rfl, ht', by simp, hsame.bytes,
        by rw [hext, if_pos rfl, hus], le_rfl, fun x m => ?_⟩
      refine exists_congr fun z => ?_
      rw [hext]
      by_cases hzp : z = p
      · subst hzp
        simp [he, hus]
      by_cases hzq : z = q
      · have hqp : q ≠ p := fun heq => hqm (by simp [heq])
        simp [hzq, hqp, hqm]
      · simp [hzp, hzq]

/-- Taking a free block into use: it is at least as long as asked for, and zero. -/
theorem useBlock_spec (ht : Tiled h l) (hp : p ∈ l) 
    (he : h.extent p = some (a, n, false)) (hpos : 0 < aligned) (hle : aligned ≤ n)
    (hali : alignCeil aligned MALLOC_ALIGNMENT = aligned) (hsz : size ≤ aligned)
    (supply : Supply) :
    ∃ h' l' n', useBlock h p size aligned supply = some (some a, h') ∧ Tiled h' l' ∧
      Gains h l h' l' a n' ∧ size ≤ n' ∧
      ∀ x, h'.bytes x = if a ≤ x ∧ x < a + size then 0 else h.bytes x := by
  obtain ⟨h1, l1, n1, hspl, ht1, hp1, hby, he1, hle1, hus⟩ :=
    splitBlock_spec ht hp he hpos hle hali supply
  have hnew : ∀ m, ¬UsedAt h l a m := by
    rintro m ⟨q, hq, he'⟩
    obtain rfl := ht.eq_of_address hp hq he he'
    rw [he] at he'
    cases he'
  obtain ⟨hlow, -, hhi⟩ := ht1.extent_mem hp1 he1
  have ht2 := ht1.setUsed p true
  have hmap : Mapped (h1.modify p ({ · with used := true })) a size :=
    ht2.isMapped hlow (by
      have : a + n1 ≤ (h1.modify p ({ · with used := true })).heapEnd := hhi
      omega)
  obtain ⟨b, hb, rfl, rfl, hfree⟩ := block_of_extent he1
  have hblk : (h1.modify p ({ · with used := true })).blocks p =
      some { b with used := true } := by
    rw [modify_blocks, if_pos rfl, hb]
    rfl
  refine ⟨{ h1.modify p ({ · with used := true }) with bytes := fun x =>
      if b.address ≤ x ∧ x < b.address + size then 0 else h1.bytes x }, l1, b.length, ?_, ?_,
    ⟨?_, hnew⟩, hsz.trans hle1, ?_⟩
  · rw [useBlock, hspl]
    simp only [hblk, bind_some, memsetZero, if_pos hmap]
    rfl
  · exact ht2.setBytes _
  · intro x m
    rw [← hus x m]
    have hext := fun z => modify_extent h1 p z true
    constructor
    · rintro ⟨z, hz, hez⟩
      change (h1.modify p ({ · with used := true })).extent z = _ at hez
      rw [hext] at hez
      split at hez
      case isTrue hzp =>
        rw [hzp, he1] at hez
        cases hez
        exact .inr ⟨rfl, rfl⟩
      case isFalse => exact .inl ⟨z, hz, hez⟩
    · rintro (⟨z, hz, hez⟩ | ⟨rfl, rfl⟩)
      · have hzp : z ≠ p := by
          rintro rfl
          rw [he1] at hez
          cases hez
        exact ⟨z, hz, (hext z).trans (by rw [if_neg hzp, hez])⟩
      · exact ⟨p, hp1, (hext p).trans (by rw [if_pos rfl, he1]; rfl)⟩
  · intro x
    rw [← hby]

/-- What an allocation does: nothing, or a block of zeros is in use. -/
inductive Allocates (h : Heap) (l : List Nat) (size : Nat) : Option Nat → Heap → List Nat → Prop
  | failed {h' l'} : h'.bytes = h.bytes → SameUsed h l h' l' → Allocates h l size none h' l'
  | block {a n h' l'} : Gains h l h' l' a n → size ≤ n →
      (∀ x, h'.bytes x = if a ≤ x ∧ x < a + size then 0 else h.bytes x) →
      Allocates h l size (some a) h' l'

/-- A size that is not rounded to zero, or memory short for the header of the block and, where the
size is rounded to zero in the first place, no free block. -/
def Heap.Fits (h : Heap) (size : Nat) (supply : Supply) : Prop :=
  size ≤ SIZE_RANGE - PAGE_SIZE ∨ (slabAlloc h supply).1 = none ∧
    (size ≤ SIZE_RANGE - MALLOC_ALIGNMENT ∨ ∀ p b, h.blocks p = some b → b.used = true)

/-- No page is asked for where rounding wraps, and none comes of it without a header. -/
theorem extendHeap_refused (hcnt : pageCount aligned = 0)
    (hal : (slabAlloc h supply).1 = none) :
    ∃ supply', extendHeap h aligned supply = (none, h, supply') := by
  unfold extendHeap
  simp only [hcnt]
  cases hslab : slabAlloc h supply with
  | mk answer supply' =>
    rw [hslab] at hal
    obtain rfl : answer = none := hal
    exact ⟨supply', rfl⟩

theorem kmalloc_spec (ht : Tiled h l) (hsz : size < SIZE_RANGE) (hfits : h.Fits size supply) :
    ∃ r h' l', kmalloc h size supply = some (r, h') ∧ Tiled h' l' ∧ Allocates h l size r h' l' := by
  rw [kmalloc]
  split
  case isTrue => exact ⟨none, h, l, rfl, ht, .failed rfl fun _ _ => .rfl⟩
  rename_i hpos
  rcases Nat.lt_or_ge (SIZE_RANGE - PAGE_SIZE) size with hwp | hle
  · obtain ⟨hslab, hfree⟩ := hfits.resolve_left (Nat.not_le_of_lt hwp)
    have hcnt : pageCount (alignCeil size MALLOC_ALIGNMENT) = 0 := by
      simp only [pageCount, alignCeil, MALLOC_ALIGNMENT, SIZE_RANGE, PAGE_SIZE] at *
      omega
    have hfd : findFreeBlock h (alignCeil size MALLOC_ALIGNMENT) = some none := by
      rcases ht.findFreeBlock_spec (alignCeil size MALLOC_ALIGNMENT) with
        hnone | ⟨p, hp, a, n, -, he, hn⟩
      · exact hnone
      exfalso
      obtain ⟨b, hb, rfl, rfl, hus⟩ := block_of_extent he
      rcases hfree with hle | hfree
      · obtain ⟨hlow, -, hhi⟩ := ht.extent_mem hp he
        have hend := ht.le
        simp only [alignCeil, MALLOC_ALIGNMENT, SIZE_RANGE, PAGE_SIZE, HEAP_REGION_SIZE] at *
        omega
      · rw [hfree p b hb] at hus
        cases hus
    obtain ⟨supply', hext⟩ := extendHeap_refused hcnt hslab
    refine ⟨none, h, l, ?_, ht, .failed rfl fun _ _ => .rfl⟩
    simp [hfd, hext]
  · obtain ⟨hle1, hle2, hali⟩ := alignCeil_eight hle
    have hpos' : 0 < alignCeil size MALLOC_ALIGNMENT := by omega
    rcases ht.findFreeBlock_spec (alignCeil size MALLOC_ALIGNMENT) with
      hnone | ⟨p, hp, a, n, hsm, he, hn⟩
    · obtain ⟨r, h1, supply1, l1, hext, ht1, hby, hus, hr⟩ :=
        extendHeap_spec ht hle2 hpos' supply
      simp only [hnone, hext]
      cases r with
      | none => exact ⟨none, h1, l1, rfl, ht1, .failed hby hus⟩
      | some q =>
        obtain ⟨hq, a, n, he, hn⟩ := hr q rfl
        obtain ⟨h', l', n', huse, ht', hgai, hn', hbytes'⟩ :=
          useBlock_spec ht1 hq he hpos' hn hali hle1 supply1
        refine ⟨some a, h', l', huse, ht', .block ⟨fun x m => ?_, fun m hm => ?_⟩ hn' fun x => ?_⟩
        · rw [hgai.used, hus]
        · exact hgai.new m ((hus a m).mpr hm)
        · rw [hbytes', hby]
    · simp only [hsm]
      obtain ⟨h', l', n', huse, ht', hgai, hn', hbytes'⟩ :=
        useBlock_spec ht hp he hpos' hn hali hle1 supply
      exact ⟨some a, h', l', huse, ht', .block hgai hn' hbytes'⟩

/-! ## Giving a block back -/

theorem Tiled.merge_free 
    (ht : Tiled h (xs ++ p :: q :: ys)) (hb : h.blocks p = some b) (hn : h.blocks q = some n)
    (hbfree : b.used = false) (hnfree : n.used = false) 
    (hh' : h' = ((h.modify p fun b =>
        { b with length := (b.length + n.length) % SIZE_RANGE, next := n.next }).setPrevOf
          n.next p).slabFree q) :
    Tiled h' (xs ++ [p] ++ ys) ∧ h'.bytes = h.bytes ∧
      h'.extent p = some (b.address, b.length + n.length, false) ∧
      SameUsed h (xs ++ p :: q :: ys) h' (xs ++ [p] ++ ys) := by
  obtain ⟨ht', hsame, hext⟩ := ht.merge hb hn hh'
  have hndp := nodup_append.mp ht.nodup
  have hpq : p ≠ q := fun heq => (nodup_cons.mp hndp.2.1).1 (by simp [heq])
  refine ⟨ht', hsame.bytes, by rw [hext, if_neg hpq, if_pos rfl, hbfree], fun a m => ?_⟩
  refine exists_congr fun z => ?_
  rw [hext]
  by_cases hzq : z = q
  · subst hzq
    simp [extent, hn, hnfree]
  by_cases hzp : z = p
  · subst hzp
    simp [extent, hb, hbfree]
  · simp [hzp, hzq]

theorem coalesceNext_spec (ht : Tiled h l) (hp : p ∈ l) 
    (he : h.extent p = some (a, n, false)) :
    ∃ h' l' n', coalesceNext h p = some h' ∧ Tiled h' l' ∧ p ∈ l' ∧ h'.bytes = h.bytes ∧
      h'.extent p = some (a, n', false) ∧ SameUsed h l h' l' := by
  obtain ⟨b, hb, rfl, rfl, hus⟩ := block_of_extent he
  obtain ⟨xs, ys, rfl⟩ := append_of_mem hp
  obtain ⟨b', hb', -, hnx, -⟩ := ht.block_at
  cases hb.symm.trans hb'
  unfold coalesceNext
  rw [hb]
  simp only [hnx]
  cases ys with
  | nil => exact ⟨h, _, _, rfl, ht, hp, rfl, he, fun _ _ => .rfl⟩
  | cons q ys =>
    obtain ⟨c, hc, -⟩ := ht.chain.mem (p := q) (by simp)
    simp only [head?_cons, hc]
    cases hcused : c.used with
    | true => exact ⟨h, _, _, rfl, ht, hp, rfl, he, fun _ _ => .rfl⟩
    | false =>
      obtain ⟨ht', hby, hext, hsame⟩ := ht.merge_free hb hc hus hcused rfl
      exact ⟨_, _, _, rfl, ht', by simp, hby, hext, hsame⟩

theorem coalescePrev_spec (ht : Tiled h l) (hp : p ∈ l) 
    (he : h.extent p = some (a, n, false)) :
    ∃ h' l', coalescePrev h p = some h' ∧ Tiled h' l' ∧ h'.bytes = h.bytes ∧
      SameUsed h l h' l' := by
  obtain ⟨b, hb, rfl, rfl, hus⟩ := block_of_extent he
  obtain ⟨xs, ys, rfl⟩ := append_of_mem hp
  obtain ⟨b', hb', hpv, -⟩ := ht.block_at
  cases hb.symm.trans hb'
  unfold coalescePrev
  rw [hb]
  simp only [hpv]
  rcases eq_nil_or_concat xs with rfl | ⟨xs, q, rfl⟩
  · exact ⟨h, _, rfl, ht, rfl, fun _ _ => .rfl⟩
  rw [concat_eq_append] at *
  obtain ⟨c, hc, -⟩ := ht.chain.mem (p := q) (by simp)
  simp only [getLast?_append, getLast?_singleton, some_or, hc]
  cases hcused : c.used with
  | true => exact ⟨h, _, rfl, ht, rfl, fun _ _ => .rfl⟩
  | false =>
    have ht' : Tiled h (xs ++ q :: p :: ys) := by simpa using ht
    obtain ⟨ht'', hby, -, hsame⟩ := ht'.merge_free hc hb hcused hus rfl
    exact ⟨_, _, rfl, ht'', hby, by simpa using hsame⟩

/-- Freeing the start of a block in use takes that block away, and no other. -/
theorem kfree_spec (ht : Tiled h l) (hlive : UsedAt h l ptr n) :
    ∃ h' l', kfree h (some ptr) = some h' ∧ Tiled h' l' ∧ h'.bytes = h.bytes ∧
      ∀ a m, UsedAt h' l' a m ↔ UsedAt h l a m ∧ a ≠ ptr := by
  obtain ⟨p, hp, he⟩ := hlive
  obtain ⟨b, hb, rfl, rfl, hus⟩ := block_of_extent he
  have ht1 := ht.setUsed p false
  have he1 : (h.modify p ({ · with used := false })).extent p =
      some (b.address, b.length, false) := by
    rw [modify_extent, if_pos rfl, he]
    rfl
  obtain ⟨h2, l2, n2, hnx, ht2, hp2, hby2, he2, hused2⟩ := coalesceNext_spec ht1 hp he1
  obtain ⟨h3, l3, hpv, ht3, hbytes3, hused3⟩ := coalescePrev_spec ht2 hp2 he2
  refine ⟨h3, l3, ?_, ht3, hbytes3.trans hby2, fun a m => ?_⟩
  · simp only [kfree, ht.findBlockAt_eq hp he, bind_some, hb, hus, if_true, coalesce,
      hnx, hpv]
  rw [hused3, hused2]
  constructor
  · rintro ⟨z, hz, hez⟩
    rw [modify_extent] at hez
    split at hez
    case isTrue hzp =>
      rw [hzp, he] at hez
      cases hez
    case isFalse hzp =>
      refine ⟨⟨z, hz, hez⟩, ?_⟩
      rintro rfl
      exact hzp (ht.eq_of_address hz hp hez he)
  · rintro ⟨⟨z, hz, hez⟩, hne⟩
    have hzp : z ≠ p := by
      rintro rfl
      rw [he] at hez
      cases hez
      exact hne rfl
    exact ⟨z, hz, by rw [modify_extent, if_neg hzp, hez]⟩

/-! ## A block of another size -/

/-- What a reallocation does of a block of length `m`: nothing, or it is long enough, or another
block takes its place and its contents. -/
inductive Reallocates (h : Heap) (l : List Nat) (ptr m size : Nat) :
    Option Nat → Heap → List Nat → Prop
  | failed {h' l'} : h'.bytes = h.bytes → SameUsed h l h' l' →
      Reallocates h l ptr m size none h' l'
  | kept : size ≤ m → Reallocates h l ptr m size (some ptr) h l
  | moved {a n h' l'} : (∀ x k, UsedAt h' l' x k ↔ UsedAt h l x k ∧ x ≠ ptr ∨ x = a ∧ k = n) →
      (∀ k, ¬UsedAt h l a k) → size ≤ n → (∀ i < m, h'.bytes (a + i) = h.bytes (ptr + i)) →
      (∀ x, ¬(a ≤ x ∧ x < a + n) → h'.bytes x = h.bytes x) →
      Reallocates h l ptr m size (some a) h' l'

theorem memcpy_spec (ht : Tiled h l) (ha : UsedAt h l a n)
    (hptr : UsedAt h l ptr m) (hle : m ≤ n) :
    ∃ bytes, memcpy h a ptr m = some { h with bytes := bytes } ∧
      (∀ i < m, bytes (a + i) = h.bytes (ptr + i)) ∧
      ∀ x, ¬(a ≤ x ∧ x < a + m) → bytes x = h.bytes x := by
  obtain ⟨p, hp, he⟩ := ha
  obtain ⟨q, hq, he'⟩ := hptr
  obtain ⟨hlow, -, hhi⟩ := ht.extent_mem hp he
  obtain ⟨hlow', -, hhigh'⟩ := ht.extent_mem hq he'
  have hmap : Mapped h a m := ht.isMapped hlow (by omega)
  have hmp' : Mapped h ptr m := ht.isMapped hlow' hhigh'
  refine ⟨_, by rw [memcpy, if_pos ⟨hmap, hmp'⟩], fun i hi => ?_, fun x hx => if_neg hx⟩
  have hin : a ≤ a + i ∧ a + i < a + m := by omega
  simp only [if_pos hin, Nat.add_sub_cancel_left]

theorem krealloc_moves (hpos : size ≠ 0)
    (hfd : findBlockAt h ptr = some (some p)) (hb : h.blocks p = some b)
    (hsh : b.length < alignCeil size MALLOC_ALIGNMENT)
    (hal : kmalloc h (alignCeil size MALLOC_ALIGNMENT) supply = some (some a, h1))
    (hcp : memcpy h1 a ptr b.length = some h2) (hfree : kfree h2 (some ptr) = some h3) :
    krealloc h (some ptr) size supply = some (some a, h3) := by
  rw [krealloc, if_neg hpos]
  simp only [hfd, hb, bind_some]
  rw [if_neg (Nat.not_le_of_lt hsh), hal, bind_some]
  dsimp only
  rw [hcp, bind_some, hfree, map_some]

theorem krealloc_spec (ht : Tiled h l) (hptr : UsedAt h l ptr m) (hpos : size ≠ 0)
    (hsz : size ≤ SIZE_RANGE - MALLOC_ALIGNMENT)
    (hfits : size ≤ SIZE_RANGE - PAGE_SIZE ∨ (slabAlloc h supply).1 = none) :
    ∃ r h' l', krealloc h (some ptr) size supply = some (r, h') ∧ Tiled h' l' ∧
      Reallocates h l ptr m size r h' l' := by
  obtain ⟨hle, hali, hran⟩ := le_alignCeil hsz
  have hfits' : h.Fits (alignCeil size MALLOC_ALIGNMENT) supply := by
    rcases hfits with hfits | hfits
    · exact .inl (alignCeil_eight hfits).2.1
    · exact .inr ⟨hfits, .inl hali⟩
  obtain ⟨p, hp, he⟩ := id hptr
  obtain ⟨b, hb, rfl, rfl, -⟩ := block_of_extent he
  have hfd := ht.findBlockAt_eq hp he
  rcases Nat.lt_or_ge b.length (alignCeil size MALLOC_ALIGNMENT) with hsh | hlg
  · obtain ⟨r, h1, l1, hal, ht1, hr⟩ := kmalloc_spec ht hran hfits'
    cases hr with
    | failed hby hus =>
      refine ⟨none, h1, l1, ?_, ht1, .failed hby hus⟩
      simp [krealloc, if_neg hpos, hfd, hb, if_neg (Nat.not_le_of_lt hsh), hal]
    | @block a n _ _ hgai hn hby =>
      have ha : UsedAt h1 l1 a n := (hgai.used a n).mpr (.inr ⟨rfl, rfl⟩)
      have hold := (hgai.used _ _).mpr (.inl hptr)
      have hne : a ≠ b.address := by
        rintro rfl
        exact hgai.new _ hptr
      have hdis := ht1.usedAt_disjoint ha hold hne
      obtain ⟨bytes, hcp, hkt, hout⟩ := memcpy_spec ht1 ha hold (by omega)
      obtain ⟨h2, l2, hfree, ht2, hby2, hused2⟩ := kfree_spec (ht1.setBytes bytes) hold
      refine ⟨some a, h2, l2, ?_, ht2, .moved (fun x k => ?_) hgai.new (hle.trans hn)
        (fun i hi => ?_) fun x hx => ?_⟩
      · exact krealloc_moves hpos hfd hb hsh hal hcp hfree
      · rw [hused2 x k, show UsedAt { h1 with bytes := bytes } l1 x k ↔ _ from hgai.used x k]
        constructor
        · rintro ⟨hx | hx, hxne⟩
          · exact .inl ⟨hx, hxne⟩
          · exact .inr hx
        · rintro (⟨hx, hxne⟩ | ⟨rfl, rfl⟩)
          · exact ⟨.inl hx, hxne⟩
          · exact ⟨.inr ⟨rfl, rfl⟩, hne⟩
      · rw [hby2]
        refine (hkt i hi).trans ?_
        rw [hby, if_neg (by omega)]
      · rw [hby2]
        refine (hout x (by omega)).trans ?_
        rw [hby, if_neg (by omega)]
  · refine ⟨_, h, l, ?_, ht, .kept (hle.trans hlg)⟩
    simp [krealloc, if_neg hpos, hfd, hb, if_pos hlg]

end Vex.Mm.Kmalloc
