import Vex.Mm.Kmalloc

/-! The blocks of the kernel heap tile its region in list order. Every operation on the list is a
split of a block, a merge of two free neighbours or a block at the end, and each of them keeps the
tiling and the blocks in use. -/

namespace Vex.Mm.Kmalloc

open Function Heap Lib.Chain List Option

/-- The blocks from one address to another. -/
abbrev Heap.Chain (h : Heap) : Option Nat → Nat → List Nat → Nat → Option Nat → Prop :=
  Lib.Chain Memblock.prev Memblock.next Memblock.address Memblock.length h.blocks

/-- The blocks tile the heap in the order of the list, and the heap is whole pages, all mapped. -/
structure Tiled (h : Heap) (l : List Nat) : Prop where
  head : h.head = l.head?
  tail : h.tail = l.getLast?
  chain : h.Chain none HEAP_REGION_BASE l h.heapEnd none
  page : h.heapEnd % PAGE_SIZE = 0
  le : h.heapEnd ≤ HEAP_REGION_BASE + HEAP_REGION_SIZE
  mapped : ∀ n, HEAP_REGION_BASE ≤ n * PAGE_SIZE → n * PAGE_SIZE < h.heapEnd →
    h.mapped n = true

/-- What a block is apart from its links. -/
def Heap.extent (h : Heap) (p : Nat) : Option (Nat × Nat × Bool) :=
  (h.blocks p).map fun b => (b.address, b.length, b.used)

/-- A block in use, of an address and a length. -/
def UsedAt (h : Heap) (l : List Nat) (address length : Nat) : Prop :=
  ∃ p ∈ l, h.extent p = some (address, length, true)

/-- All but the blocks is as it was. -/
structure SameMemory (h h' : Heap) : Prop where
  heapEnd : h'.heapEnd = h.heapEnd
  mapped : h'.mapped = h.mapped
  bytes : h'.bytes = h.bytes

section Links

variable (h : Heap) (p q : Nat) (link : Option Nat) (f : Memblock → Memblock)

theorem modify_blocks : (h.modify p f).blocks q = if q = p then (h.blocks q).map f
    else h.blocks q := by
  refine (update_apply ..).trans ?_
  split
  case isTrue heq => rw [heq]
  case isFalse => rfl

theorem setPrevOf_blocks : (h.setPrevOf link p).blocks q =
    if link = some q then (h.blocks q).map ({ · with prev := some p }) else h.blocks q := by
  cases link with
  | none => rfl
  | some next =>
    rw [setPrevOf, modify_blocks]
    simp only [some.injEq, eq_comm]

theorem slabFree_blocks : (h.slabFree p).blocks q = if q = p then none else h.blocks q :=
  update_apply ..

theorem setPrevOf_head : (h.setPrevOf link p).head = h.head := by cases link <;> rfl

theorem setPrevOf_tail : (h.setPrevOf link p).tail = if link = none then some p else h.tail := by
  cases link <;> rfl

theorem linkLast_blocks : (h.linkLast p).blocks q =
    if h.tail = some q then (h.blocks q).map ({ · with next := some p }) else h.blocks q := by
  unfold linkLast
  cases htl : h.tail with
  | none => rfl
  | some tail =>
    refine (modify_blocks ..).trans ?_
    simp only [some.injEq, eq_comm]

theorem linkLast_head : (h.linkLast p).head = if h.tail = none then some p else h.head := by
  unfold linkLast
  cases h.tail <;> rfl

theorem linkLast_tail : (h.linkLast p).tail = some p := by
  unfold linkLast
  cases h.tail <;> rfl

theorem linkLast_memory : (h.linkLast p).heapEnd = h.heapEnd ∧ (h.linkLast p).mapped = h.mapped ∧
    (h.linkLast p).bytes = h.bytes := by
  unfold linkLast
  cases h.tail <;> exact ⟨rfl, rfl, rfl⟩

end Links

variable {h : Heap} {l xs ys : List Nat} {p q : Nat} {b : Memblock}

theorem extent_map {h' : Heap} [Decidable c]
    (hq : h'.blocks q = if c then (h.blocks q).map f else h.blocks q)
    (hf : ∀ b, ((f b).address, (f b).length, (f b).used) = (b.address, b.length, b.used)) :
    h'.extent q = h.extent q := by
  rw [extent, hq]
  split
  case isTrue => rw [Option.map_map]; exact congrArg (Option.map · _) (funext hf)
  case isFalse => rfl

theorem block_of_extent (h' : h.extent p = some (a, n, used)) :
    ∃ b, h.blocks p = some b ∧ b.address = a ∧ b.length = n ∧ b.used = used := by
  obtain ⟨b, hb, ⟨⟩⟩ := map_eq_some_iff.mp h'
  exact ⟨b, hb, rfl, rfl, rfl⟩

namespace Tiled

theorem nodup (ht : Tiled h l) : l.Nodup := ht.chain.nodup

theorem not_mem (ht : Tiled h l) (hq : h.blocks q = none) : q ∉ l := by
  intro hmem
  obtain ⟨b, hb, -⟩ := ht.chain.mem hmem
  rw [hq] at hb
  cases hb

variable {h' : Heap}

/-- Some blocks in the middle of the list are replaced, from the same first one on. -/
theorem replace (old mid : List Nat) (ht : Tiled h (xs ++ old ++ ys)) (hold : old.head? = some p)
    (hfst : mid.head? = some p) (hlast : mid.getLast? = some last) (hsame : SameMemory h h')
    (hhd : h'.head = h.head) (htl : h'.tail = if ys.head? = none then some last else h.tail)
    (hnew : ∀ z ∈ mid, z ∈ old ∨ h.blocks z = none)
    (hoth : ∀ z, z ∉ old → z ∉ mid → h'.blocks z = if ys.head? = some z
      then (h.blocks z).map ({ · with prev := some last }) else h.blocks z)
    (hmid : ∀ start stop, h.Chain xs.getLast? start old stop ys.head? →
      h'.Chain xs.getLast? start mid stop ys.head?) : Tiled h' (xs ++ mid ++ ys) := by
  obtain ⟨stop, hchn, hchain3⟩ := append_iff.mp ht.chain
  obtain ⟨start, hchain1, hchain2⟩ := append_iff.mp hchn
  obtain ⟨hnodup1, hndp, hdis⟩ := nodup_append.mp ht.nodup
  have hout : ∀ z, z ∉ old → z ∈ xs ++ old ++ ys → h'.blocks z = if ys.head? = some z
      then (h.blocks z).map ({ · with prev := some last }) else h.blocks z := fun z hz hmem =>
    hoth z hz fun hz' => (hnew z hz').elim hz fun hnone => ht.not_mem hnone hmem
  have hys := fun z (hz : z ∈ ys) =>
    hout z (fun hz' => hdis z (by simp [hz']) z hz rfl) (by simp [hz])
  constructor
  · rw [hhd, ht.head]
    cases xs <;> simp [hold, hfst]
  · rw [htl, ht.tail]
    cases ys with
    | nil => simp [hlast]
    | cons y ys => simp [getLast?_cons]
  · rw [hsame.heapEnd]
    refine append_iff.mpr ⟨stop, append_iff.mpr ⟨start, ?_, ?_⟩, ?_⟩
    · have haft : (mid.head?.or (ys.head?.or none)) = old.head?.or (ys.head?.or none) := by
        rw [hold, hfst]
      rw [haft]
      refine hchain1.congr fun z hz => ?_
      rw [hout z (fun hz' => (nodup_append.mp hnodup1).2.2 z hz z hz' rfl) (by simp [hz]), if_neg]
      exact fun hz' => hdis z (by simp [hz]) z (mem_of_mem_head? hz') rfl
    · rw [or_none, or_none] at *
      exact hmid start stop hchain2
    rw [getLast?_append, hlast]
    refine hchain3.rebase (fun z c hz hc => ?_) fun z hz => ?_
    · have hmem : z ∈ ys := mem_of_mem_head? hz
      exact ⟨{ c with prev := some last }, by rw [hys z hmem, if_pos hz, hc]; rfl, rfl, rfl, rfl,
        rfl⟩
    rw [hys z (mem_of_mem_tail hz), if_neg]
    intro hhd
    cases ys with
    | nil => cases hhd
    | cons y ys =>
      cases hhd
      exact (nodup_cons.mp hndp).1 hz
  · rw [hsame.heapEnd]
    exact ht.page
  · rw [hsame.heapEnd]
    exact ht.le
  · rw [hsame.heapEnd, hsame.mapped]
    exact ht.mapped

theorem block_at (ht : Tiled h (xs ++ p :: ys)) :
    ∃ b, h.blocks p = some b ∧ b.prev = xs.getLast? ∧ b.next = ys.head? ∧ 0 < b.length ∧
      HEAP_REGION_BASE ≤ b.address ∧ b.address + b.length ≤ h.heapEnd := by
  obtain ⟨mid, hxs, b, hb, hpv, hnx, rfl, hpos, hys⟩ := append_iff.mp ht.chain
  exact ⟨b, hb, by simpa using hpv, by simpa using hnx, hpos, hxs.le, hys.le⟩

theorem setUsed (ht : Tiled h l) (p : Nat) (used : Bool) :
    Tiled (h.modify p ({ · with used := used })) l where
  head := ht.head
  tail := ht.tail
  chain := by
    refine ht.chain.imp fun z _ c hc => ?_
    rw [modify_blocks, hc]
    split
    case isTrue => exact ⟨{ c with used := used }, rfl, rfl, rfl, rfl, rfl⟩
    case isFalse => exact ⟨c, rfl, rfl, rfl, rfl, rfl⟩
  page := ht.page
  le := ht.le
  mapped := ht.mapped

theorem split (ht : Tiled h (xs ++ p :: ys)) (hb : h.blocks p = some b) (hq : h.blocks q = none)
    (ha : 0 < a) (hr : 0 < r) (hsum : a + r = b.length) (used : Bool)
    (hh' : h' = (Heap.setPrevOf { h with blocks := update h.blocks q (some
        ⟨some p, b.next, used, b.address + a, r⟩) } b.next q).modify p
          ({ · with next := some q, length := a })) :
    Tiled h' (xs ++ [p, q] ++ ys) ∧ SameMemory h h' ∧
      ∀ z, h'.extent z = if z = p then some (b.address, a, b.used)
        else if z = q then some (b.address + a, r, used) else h.extent z := by
  obtain ⟨b', hb', hpv, hnx, hpos, -, -⟩ := ht.block_at
  cases hb.symm.trans hb'
  have hndp := nodup_append.mp ht.nodup
  have hpys : p ∉ ys := (nodup_cons.mp hndp.2.1).1
  have hqm := ht.not_mem hq
  have hqp : q ≠ p := fun heq => hqm (by simp [heq])
  have hnextp : b.next ≠ some p := fun heq => hpys (mem_of_mem_head? (hnx ▸ heq))
  have hnextq : b.next ≠ some q := fun heq =>
    hqm (by simp [mem_of_mem_head? (hnx.symm.trans heq)])
  -- the memory after the stores, cell by cell
  have hblks : ∀ z, h'.blocks z = if z = p then some { b with next := some q, length := a }
      else if z = q then some ⟨some p, b.next, used, b.address + a, r⟩
      else if b.next = some z then (h.blocks z).map ({ · with prev := some q })
      else h.blocks z := by
    intro z
    rw [hh', modify_blocks, setPrevOf_blocks]
    by_cases hzp : z = p
    · subst hzp
      rw [if_neg hnextp]
      simp [update_of_ne hqp.symm, hb]
    rw [if_neg hzp, if_neg hzp]
    by_cases hzq : z = q
    · subst hzq
      rw [if_neg hnextq]
      simp
    · rw [if_neg hzq]
      simp [update_of_ne hzq]
  have hsame : SameMemory h h' := by
    rw [hh']
    cases b.next <;> exact ⟨rfl, rfl, rfl⟩
  refine ⟨?_, hsame, fun z => ?_⟩
  · refine Tiled.replace [p] [p, q] (by simpa using ht) rfl rfl
      (show [p, q].getLast? = some q from rfl) hsame ?_ ?_ (by simp [hq]) ?_ ?_
    · rw [hh']
      exact setPrevOf_head ..
    · rw [hh', ← hnx]
      exact setPrevOf_tail ..
    · intro z hz hz'
      rw [hblks, if_neg (by simpa using hz), if_neg (by simp_all), hnx]
    rintro start stop ⟨b', hb', hpv', hnx', rfl, -, hend⟩
    cases hb.symm.trans hb'
    refine ⟨{ b with next := some q, length := a }, by rw [hblks, if_pos rfl], hpv', rfl,
      rfl, ha, ⟨some p, b.next, used, b.address + a, r⟩,
      by rw [hblks, if_neg hqp, if_pos rfl], rfl, hnx', rfl, hr, ?_⟩
    exact (by omega : b.address + a + r = b.address + b.length).trans hend
  · by_cases hzp : z = p
    · simp [extent, hblks, hzp]
    by_cases hzq : z = q
    · simp [extent, hblks, hzq, hqp]
    · rw [if_neg hzp, if_neg hzq]
      exact extent_map ((hblks z).trans ((if_neg hzp).trans (if_neg hzq))) fun _ => rfl

theorem merge (ht : Tiled h (xs ++ p :: q :: ys)) (hb : h.blocks p = some b)
    (hn : h.blocks q = some n) (hh' : h' = ((h.modify p fun b =>
        { b with length := (b.length + n.length) % SIZE_RANGE, next := n.next }).setPrevOf
          n.next p).slabFree q) :
    Tiled h' (xs ++ [p] ++ ys) ∧ SameMemory h h' ∧
      ∀ z, h'.extent z = if z = q then none
        else if z = p then some (b.address, b.length + n.length, b.used) else h.extent z := by
  obtain ⟨b', hb', -, hpnext, hpos, -, -⟩ := ht.block_at
  cases hb.symm.trans hb'
  have ht' : Tiled h ((xs ++ [p]) ++ q :: ys) := by simpa using ht
  obtain ⟨n', hn', -, hnx, -, -, hend⟩ := ht'.block_at
  cases hn.symm.trans hn'
  have hadjacent : n.address = b.address + b.length := by
    obtain ⟨mid, -, b', hb', -, -, rfl, -, n', hn', -, -, hlo, -, -⟩ := append_iff.mp ht.chain
    cases hb.symm.trans hb'
    cases hn.symm.trans hn'
    exact hlo
  have hlen : (b.length + n.length) % SIZE_RANGE = b.length + n.length := by
    have := ht.le
    simp only [SIZE_RANGE, HEAP_REGION_BASE, HEAP_REGION_SIZE] at *
    omega
  have hndp := nodup_append.mp ht.nodup
  have hpq : p ≠ q := fun heq => (nodup_cons.mp hndp.2.1).1 (by simp [heq])
  have hpys : p ∉ ys := fun hp => (nodup_cons.mp hndp.2.1).1 (by simp [hp])
  have hnextp : n.next ≠ some p := fun heq => hpys (mem_of_mem_head? (hnx ▸ heq))
  have hblks : ∀ z, h'.blocks z = if z = q then none
      else if z = p then some { b with length := b.length + n.length, next := n.next }
      else if n.next = some z then (h.blocks z).map ({ · with prev := some p })
      else h.blocks z := by
    intro z
    rw [hh', slabFree_blocks, setPrevOf_blocks, modify_blocks]
    by_cases hzq : z = q
    · rw [if_pos hzq, if_pos hzq]
    rw [if_neg hzq, if_neg hzq]
    by_cases hzp : z = p
    · subst hzp
      rw [if_neg hnextp, if_pos rfl, if_pos rfl, hb, map_some, hlen]
    · rw [if_neg hzp, if_neg hzp]
  have hsame : SameMemory h h' := by
    rw [hh']
    cases n.next <;> exact ⟨rfl, rfl, rfl⟩
  refine ⟨?_, hsame, fun z => ?_⟩
  · refine Tiled.replace [p, q] [p] (by simpa using ht) rfl rfl
      (show [p].getLast? = some p from rfl) hsame ?_ ?_ (by simp) ?_ ?_
    · rw [hh']
      exact setPrevOf_head ..
    · rw [hh', ← hnx]
      exact setPrevOf_tail ..
    · intro z hz hz'
      rw [hblks, if_neg (by simp_all), if_neg (by simpa using hz'), hnx]
    rintro start stop ⟨b', hb', hpv', -, rfl, -, n', hn', -, hnx', -, -, hsp⟩
    cases hb.symm.trans hb'
    cases hn.symm.trans hn'
    refine ⟨{ b with length := b.length + n.length, next := n.next },
      by rw [hblks, if_neg hpq, if_pos rfl], hpv', hnx', rfl, Nat.add_pos_left hpos _, ?_⟩
    exact (Nat.add_assoc ..).symm.trans hsp
  · by_cases hzq : z = q
    · simp [extent, hblks, hzq]
    by_cases hzp : z = p
    · simp [extent, hblks, hzp, hpq]
    · rw [if_neg hzp, if_neg hzq]
      exact extent_map ((hblks z).trans ((if_neg hzq).trans (if_neg hzp))) fun _ => rfl

theorem extend (ht : Tiled h l) (hq : h.blocks q = none) (hpos : 0 < npages)
    (hrm : h.heapEnd + npages * PAGE_SIZE ≤ HEAP_REGION_BASE + HEAP_REGION_SIZE)
    {mapped : Nat → Bool} (hmap : ∀ n, h.mapped n = true ∨
      h.heapEnd / PAGE_SIZE ≤ n ∧ n < h.heapEnd / PAGE_SIZE + npages → mapped n = true)
    (hh' : h' = Heap.linkLast { h with
      blocks := update h.blocks q
        (some ⟨h.tail, none, false, h.heapEnd, npages * PAGE_SIZE⟩)
      mapped := mapped
      heapEnd := h.heapEnd + npages * PAGE_SIZE } q) :
    Tiled h' (l ++ [q]) ∧ h'.bytes = h.bytes ∧
      ∀ z, h'.extent z =
        if z = q then some (h.heapEnd, npages * PAGE_SIZE, false) else h.extent z := by
  have hqm := ht.not_mem hq
  have hblks : ∀ z, h'.blocks z = if z = q then
      some ⟨h.tail, none, false, h.heapEnd, npages * PAGE_SIZE⟩
      else if l.getLast? = some z then (h.blocks z).map ({ · with next := some q })
      else h.blocks z := by
    intro z
    have hqlast : l.getLast? ≠ some q := fun heq => hqm (mem_of_getLast? heq)
    rw [hh', linkLast_blocks, ht.tail]
    by_cases hzq : z = q
    · rw [hzq, if_neg hqlast, if_pos rfl]
      exact update_self ..
    · rw [if_neg hzq]
      simp only [update_of_ne hzq]
  obtain ⟨hheapEnd, hmp', hby⟩ : h'.heapEnd = h.heapEnd + npages * PAGE_SIZE ∧
      h'.mapped = mapped ∧ h'.bytes = h.bytes := by
    rw [hh']
    exact linkLast_memory ..
  refine ⟨⟨?_, ?_, ?_, ?_, ?_, ?_⟩, hby, fun z => ?_⟩
  · rw [hh', linkLast_head, ht.tail, ht.head]
    cases l <;> simp
  · rw [hh', linkLast_tail]
    simp
  · rw [hheapEnd]
    refine append_iff.mpr ⟨h.heapEnd, ht.chain.reface ?_ ?_, ?_⟩
    · intro z c hz hc
      have hzq : z ≠ q := fun heq => hqm (heq ▸ mem_of_getLast? hz)
      exact ⟨{ c with next := some q }, by rw [hblks, if_neg hzq, if_pos hz, hc]; rfl, rfl, rfl,
        rfl, rfl⟩
    · intro z hz
      have hzq : z ≠ q := fun heq => hqm (heq ▸ dropLast_subset l hz)
      rw [hblks, if_neg hzq, if_neg]
      intro hlast
      obtain ⟨init, rfl⟩ := getLast?_eq_some_iff.mp hlast
      rw [dropLast_concat] at hz
      exact (nodup_append.mp ht.nodup).2.2 z hz z (by simp) rfl
    · refine ⟨⟨h.tail, none, false, h.heapEnd, npages * PAGE_SIZE⟩, by rw [hblks, if_pos rfl],
        by simp [ht.tail], rfl, rfl, Nat.mul_pos hpos (by decide), rfl⟩
  · rw [hheapEnd, Nat.add_mul_mod_self_right]
    exact ht.page
  · rw [hheapEnd]
    exact hrm
  · intro n hlow hhi
    rw [hmp']
    refine hmap n ?_
    rcases Nat.lt_or_ge (n * PAGE_SIZE) h.heapEnd with hlt | hge
    · exact .inl (ht.mapped n hlow hlt)
    · have hpg := ht.page
      refine .inr ⟨?_, ?_⟩ <;> simp only [PAGE_SIZE] at * <;> omega
  · by_cases hzq : z = q
    · simp [extent, hblks, hzq]
    · rw [if_neg hzq]
      exact extent_map ((hblks z).trans (if_neg hzq)) fun _ => rfl

end Tiled

end Vex.Mm.Kmalloc
