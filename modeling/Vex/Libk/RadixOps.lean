import Vex.Libk.RadixShape

/-! What each operation of the radix tree does to the placement of nodes and items. -/

namespace Vex.Libk

open Function Placement Option List

variable {heap : RadixHeap} {height root : Nat} {ptr : Placement} {index : BitVec 64}

/-! ## Looking up -/

namespace Holds

section
variable (h : Holds heap height root ptr)
include h

/-- The node above an index has, in the slot of the index, what is placed one level down. -/
theorem slot_eq (hne : ptr (l + 1) (index.toNat / 64 ^ (l + 1)) ≠ 0) :
    ∃ node, heap (ptr (l + 1) (index.toNat / 64 ^ (l + 1))) = some node ∧
      Fills node ptr l (index.toNat / 64 ^ (l + 1)) ∧
      node.slots (slotOf (l + 1) index) = ptr l (index.toNat / 64 ^ l) := by
  obtain ⟨node, hnd, hfil⟩ := h.node l _ hne
  refine ⟨node, hnd, hfil, ?_⟩
  rw [hfil.slots, slotOf_val, prefix_split]

theorem leaf_eq (hne : ptr 1 (index.toNat / 64) ≠ 0) :
    ∃ node, heap (ptr 1 (index.toNat / 64)) = some node ∧ Fills node ptr 0 (index.toNat / 64) ∧
      node.slots (slotOf 1 index) = ptr 0 index.toNat := by
  have hne' : ptr (0 + 1) (index.toNat / 64 ^ (0 + 1)) ≠ 0 := by simpa using hne
  simpa using h.slot_eq hne'

theorem root_eq (hrt : root ≠ 0) (hfits : fits height index) :
    0 < height ∧ ptr height (index.toNat / 64 ^ height) = root := by
  obtain ⟨hpos, -, heq⟩ := h.rooted.resolve_left fun hemp => hrt hemp.2
  rw [Nat.div_eq_of_lt (fits_iff.mp hfits)]
  exact ⟨hpos, heq⟩

theorem item_eq_zero (hout : root = 0 ∨ fits height index = false) : ptr 0 index.toNat = 0 := by
  by_contra hne
  obtain ⟨hpos, -, hlt⟩ := h.top _ _ hne
  rcases hout with hrt | hfits
  · exact (h.rooted.resolve_left (by omega)).2.1 hrt
  have := fits_iff.mpr (show index.toNat < 64 ^ height by simpa using hlt)
  rw [hfits] at this
  cases this

end

end Holds

/-- The nodes above the last level on the way from `level` to an index, the lowest first. -/
def nodesTo (ptr : Placement) (n level : Nat) : List Nat :=
  (List.range' 2 (level - 1)).map fun l => ptr l (n / 64 ^ l)

theorem descend_spec (h : Holds heap height root ptr) (path : List Nat) (hlvl : level < height)
    (hp : ptr (level + 1) (index.toNat / 64 ^ (level + 1)) = p) (hne : p ≠ 0) :
    (ptr 1 (index.toNat / 64) = 0 ∧
      ∃ path', descend heap index (level + 1) p path = some (0, path')) ∨
    ptr 1 (index.toNat / 64) ≠ 0 ∧ descend heap index (level + 1) p path =
      some (ptr 1 (index.toNat / 64), nodesTo ptr index.toNat (level + 1) ++ path) := by
  induction level generalizing p path with
  | zero =>
    subst hp
    exact .inr ⟨hne, rfl⟩
  | succ level ih =>
    subst hp
    obtain ⟨node, hnd, -, hsl⟩ := h.slot_eq hne
    rw [descend, hnd, bind_eq_bind, bind_some]
    simp only [hsl]
    by_cases hch : ptr (level + 1) (index.toNat / 64 ^ (level + 1)) = 0
    · rw [if_pos hch]
      refine .inl ⟨?_, _, rfl⟩
      -- with a node missing on the way there is none at the last level
      by_contra hlf
      have hup := h.prefixes (by rwa [pow_one]) level (by omega)
      rw [add_comm] at hup
      exact hup hch
    · rw [if_neg hch]
      have hnds : nodesTo ptr index.toNat (level + 1 + 1) ++ path =
          nodesTo ptr index.toNat (level + 1) ++
            ptr (level + 1 + 1) (index.toNat / 64 ^ (level + 1 + 1)) :: path := by
        rw [nodesTo, Nat.add_sub_cancel, range'_1_concat, map_append, append_assoc,
          add_comm 2 level]
        rfl
      rw [hnds]
      exact ih _ (by omega) rfl hch

variable {t : RadixTree}

theorem radixLookup_eq (h : Holds t.heap t.height t.root ptr) :
    radixLookup t index = some (ptr 0 index.toNat) := by
  unfold radixLookup
  split
  case isTrue hout => rw [h.item_eq_zero hout]
  rename_i hin
  obtain ⟨hrt, hfits⟩ := not_or.mp hin
  obtain ⟨hpos, heq⟩ := h.root_eq hrt (by simpa using hfits : fits t.height index)
  obtain ⟨level, hlvl⟩ := Nat.exists_eq_succ_of_ne_zero hpos.ne'
  rw [hlvl] at heq ⊢
  rcases descend_spec h [] (by omega) heq hrt with ⟨hlf, path, hdes⟩ | ⟨hlf, hdes⟩
  · rw [hdes]
    have hit : ptr 0 index.toNat = 0 := by
      by_contra hne
      exact h.up 0 _ hne hpos hlf
    simp [hit]
  · rw [hdes]
    obtain ⟨node, hnd, -, hsl⟩ := h.leaf_eq hlf
    simp [hlf, hnd, hsl]

/-! ## Inserting -/

theorem slabAlloc_spec (hp : (slabAlloc heap supply).1 ≠ 0) :
    heap (slabAlloc heap supply).1 = none := by
  cases supply with
  | nil => exact absurd rfl hp
  | cons answer supply =>
    cases answer with
    | none => exact absurd rfl hp
    | some p =>
      simp only [slabAlloc] at hp ⊢
      split at hp
      case isTrue => exact absurd rfl hp
      case isFalse hnone =>
        rw [if_neg hnone]
        simpa using hnone

theorem heightFor_bounds (index : BitVec 64) (fuel height : Nat) :
    height ≤ heightFor index fuel height ∧ heightFor index fuel height ≤ height + fuel := by
  induction fuel generalizing height with
  | zero => simp [heightFor]
  | succ fuel ih =>
    rw [heightFor]
    split
    · omega
    · have := ih (height + 1)
      omega

/-- The first part changes no item; if it succeeds there is a root. -/
theorem plant_spec (index : BitVec 64) (h : Holds t.heap t.height t.root ptr) (supply : Supply) :
    ∃ r t' supply' ptr', plant t index supply = (r, t', supply') ∧
      Holds t'.heap t'.height t'.root ptr' ∧ ptr' 0 = ptr 0 ∧
      (r = .ok () ∧ t'.root ≠ 0 ∨ r = .error .ENOMEM ∧ t.root = 0) := by
  unfold plant
  split
  case isTrue hrt =>
    simp only
    split
    case isTrue => exact ⟨_, _, _, ptr, rfl, h, rfl, .inr ⟨rfl, hrt⟩⟩
    rename_i hne
    have hht : t.height = 0 := by
      by_contra hpos
      exact (h.rooted.resolve_left fun hz => hpos hz.1).2.1 hrt
    rw [hht] at h
    have hbds := heightFor_bounds index (RADIX_MAX_DEPTH - 1) 1
    have hmax : 1 + (RADIX_MAX_DEPTH - 1) = RADIX_MAX_DEPTH := rfl
    refine ⟨_, _, _, _, rfl, h.plant hne hbds.1 (hmax ▸ hbds.2), ?_, .inl ⟨rfl, hne⟩⟩
    funext b
    exact put_of_level_ne (Nat.ne_of_lt hbds.1)
  case isFalse hrt => exact ⟨_, _, _, ptr, rfl, h, rfl, .inl ⟨rfl, hrt⟩⟩

/-- The second part changes no item; it fails only for an index the tree had no level for. -/
theorem grow_spec (index : BitVec 64) (h : Holds t.heap t.height t.root ptr) (hrt : t.root ≠ 0)
    (supply : Supply) :
    ∃ r t' supply' ptr', grow index supply t = (r, t', supply') ∧
      Holds t'.heap t'.height t'.root ptr' ∧ ptr' 0 = ptr 0 ∧ t'.root ≠ 0 ∧
      (r = .ok () ∧ fits t'.height index ∨ r = .error .ENOMEM ∧ fits t.height index = false) := by
  induction supply generalizing t ptr with
  | nil =>
    refine ⟨_, _, _, ptr, rfl, h, rfl, hrt, ?_⟩
    split
    case isTrue hfits => exact .inl ⟨rfl, hfits⟩
    case isFalse hfits => exact .inr ⟨rfl, by simpa using hfits⟩
  | cons answer supply ih =>
    rw [grow]
    split
    case isTrue hfits => exact ⟨_, _, _, ptr, rfl, h, rfl, hrt, .inl ⟨rfl, hfits⟩⟩
    rename_i hfits
    simp only
    split
    case isTrue => exact ⟨_, _, _, ptr, rfl, h, rfl, hrt, .inr ⟨rfl, by simpa using hfits⟩⟩
    rename_i htop
    have hht : t.height < RADIX_MAX_DEPTH := by
      -- every index fits the highest tree
      by_contra hge
      refine hfits (fits_iff.mpr (index.isLt.trans_le ?_))
      calc 2 ^ 64 ≤ 64 ^ RADIX_MAX_DEPTH := by decide
        _ ≤ 64 ^ t.height := Nat.pow_le_pow_right (by decide) (not_lt.mp hge)
    have hpos : 0 < t.height := (h.rooted.resolve_left fun hz => hrt hz.2).1
    have hgrown := h.grow hpos htop (slabAlloc_spec htop) hht
    obtain ⟨r, t', supply', ptr', heq, hhd, hits, hrt', hr⟩ :=
      ih (t := ⟨_, _, _⟩) hgrown htop
    refine ⟨r, t', supply', ptr', heq, hhd, ?_, hrt', ?_⟩
    · rw [hits]
      funext b
      exact put_of_level_ne (by omega)
    · exact hr.imp id fun hr => ⟨hr.1, by simpa using hfits⟩

theorem prefix_div (n l : Nat) : n / 64 ^ l / 64 = n / 64 ^ (l + 1) := by
  rw [Nat.div_div_eq_div_mul, ← pow_succ]

/-- The third part changes no item; it fails only for an index without a node at the last
level. -/
theorem reach_spec (h : Holds heap height root ptr) (supply : Supply) (hlvl : level < height)
    (hp : ptr (level + 1) (index.toNat / 64 ^ (level + 1)) = p) (hne : p ≠ 0) :
    ∃ r heap' ptr', reach index (level + 1) p heap supply = some (r, heap') ∧
      Holds heap' height root ptr' ∧ ptr' 0 = ptr 0 ∧
      (r = .ok (ptr' 1 (index.toNat / 64)) ∧ ptr' 1 (index.toNat / 64) ≠ 0 ∨
        r = .error .ENOMEM ∧ ptr 1 (index.toNat / 64) = 0) := by
  induction level generalizing heap ptr p supply with
  | zero =>
    subst hp
    exact ⟨_, _, ptr, rfl, h, rfl, .inl ⟨rfl, hne⟩⟩
  | succ level ih =>
    subst hp
    obtain ⟨node, hnd, hfil, hsl⟩ := h.slot_eq hne
    rw [reach, hnd, bind_eq_bind, bind_some]
    simp only [hsl]
    by_cases hch : ptr (level + 1) (index.toNat / 64 ^ (level + 1)) = 0
    · rw [if_pos hch]
      have hlf : ptr 1 (index.toNat / 64) = 0 := by
        by_contra hlf
        have hup := h.prefixes (by rwa [pow_one]) level (by omega)
        rw [add_comm] at hup
        exact hup hch
      split
      case isTrue => exact ⟨_, _, ptr, rfl, h, rfl, .inr ⟨rfl, hlf⟩⟩
      rename_i hfre
      have hadd := h.add
        (by rwa [prefix_div]) hch hfre
        ((Nat.div_mul_le_self _ _).trans_lt index.isLt) (by rw [prefix_div]; exact hnd)
        (slotOf_val _ _) (.inr ⟨by simp, slabAlloc_spec hfre, rfl⟩)
      rw [prefix_div] at hadd
      obtain ⟨r, heap', ptr', heq, hhd, hits, hr⟩ :=
        ih hadd (slabAlloc heap supply).2 (by omega) put_self hfre
      refine ⟨r, heap', ptr', heq, hhd, ?_, ?_⟩
      · rw [hits]
        funext b
        exact put_of_level_ne (by omega)
      · exact hr.imp id fun hr => ⟨hr.1, hlf⟩
    · rw [if_neg hch]
      exact ih h supply (by omega) rfl hch

theorem place_spec (h : Holds heap height root ptr) (hit : item ≠ 0)
    (hlf : ptr 1 (index.toNat / 64) ≠ 0) :
    ∃ r heap' ptr', place heap index item (ptr 1 (index.toNat / 64)) = some (r, heap') ∧
      Holds heap' height root ptr' ∧
      (ptr 0 index.toNat = 0 ∧ r = .ok () ∧
          ptr' 0 = update (ptr 0) index.toNat item ∨
        ptr 0 index.toNat ≠ 0 ∧ r = .error .EEXIST ∧ ptr' 0 = ptr 0) := by
  obtain ⟨node, hnd, hfil, hsl⟩ := h.leaf_eq hlf
  rw [place, hnd, bind_eq_bind, bind_some]
  simp only [hsl]
  split
  case isTrue hne => exact ⟨_, _, ptr, rfl, h, .inr ⟨hne, rfl, rfl⟩⟩
  case isFalse hnl =>
    have hadd := h.add hlf (not_not.mp hnl) hit
      (by simpa using index.isLt) hnd (by simpa using slotOf_val 0 index) (.inl ⟨rfl, rfl⟩)
    exact ⟨_, _, _, rfl, hadd, .inl ⟨not_not.mp hnl, rfl, update_self ..⟩⟩

/-- `radix_insert` adds the item where there was none, or changes no item: it fails with
`-EEXIST` exactly where there is one, and with `-ENOMEM` otherwise. -/
theorem radixInsert_spec (h : Holds t.heap t.height t.root ptr) (hit : item ≠ 0) (supply : Supply)
    :
    ∃ r t' ptr', radixInsert t index item supply = some (r, t') ∧
      Holds t'.heap t'.height t'.root ptr' ∧
      (ptr 0 index.toNat = 0 ∧ r = .ok () ∧
          ptr' 0 = update (ptr 0) index.toNat item ∨
        ptr 0 index.toNat = 0 ∧ r = .error .ENOMEM ∧ ptr' 0 = ptr 0 ∨
        ptr 0 index.toNat ≠ 0 ∧ r = .error .EEXIST ∧ ptr' 0 = ptr 0) := by
  obtain ⟨r1, t1, supply1, ptr1, hpla, h1, hit1, hr1⟩ := plant_spec index h supply
  rcases hr1 with ⟨rfl, hrt1⟩ | ⟨rfl, hrt⟩
  case inr =>
    refine ⟨_, _, ptr1, by rw [radixInsert, hpla], h1, .inr (.inl ⟨?_, rfl, hit1⟩)⟩
    exact h.item_eq_zero (.inl hrt)
  obtain ⟨r2, t2, supply2, ptr2, hgrow, h2, hitems2, hrt2, hr2⟩ :=
    grow_spec index h1 hrt1 supply1
  rcases hr2 with ⟨rfl, hfits⟩ | ⟨rfl, hfits⟩
  case inr =>
    refine ⟨_, _, ptr2, by rw [radixInsert, hpla]; simp only [hgrow], h2,
      .inr (.inl ⟨?_, rfl, hitems2.trans hit1⟩)⟩
    rw [← hit1]
    exact h1.item_eq_zero (.inr hfits)
  obtain ⟨hpos, hrtd⟩ := h2.root_eq hrt2 hfits
  obtain ⟨level, hlvl⟩ := Nat.exists_eq_succ_of_ne_zero hpos.ne'
  obtain ⟨r3, heap3, ptr3, hrea, h3, hitems3, hr3⟩ :=
    reach_spec h2 supply2 (hlvl ▸ Nat.lt_succ_self level) (hlvl ▸ hrtd) hrt2
  have hits : ptr3 0 = ptr 0 := hitems3.trans (hitems2.trans hit1)
  rw [← Nat.succ_eq_add_one, ← hlvl] at hrea
  rcases hr3 with ⟨rfl, hlf⟩ | ⟨rfl, hlf⟩
  case inr =>
    refine ⟨_, { t2 with heap := heap3 }, ptr3,
      by rw [radixInsert, hpla]; simp [hgrow, hrea], h3, .inr (.inl ⟨?_, rfl, hits⟩)⟩
    rw [← hit1, ← hitems2]
    by_contra hne
    exact h2.up 0 _ hne hpos hlf
  obtain ⟨r4, heap4, ptr4, hplc, h4, hr4⟩ := place_spec h3 hit hlf
  refine ⟨r4, { t2 with heap := heap4 }, ptr4,
    by rw [radixInsert, hpla]; simp [hgrow, hrea, hplc], h4, ?_⟩
  rw [hits] at hr4
  rcases hr4 with hr4 | hr4
  · exact .inl hr4
  · exact .inr (.inr hr4)

/-! ## Removing -/

/-- Unlinking empty nodes on the way up from level `l + 1` changes no item. -/
theorem prune_spec (h : Holds heap height root ptr) (hd : l + 1 + d = height)
    (hne : ptr (l + 1) (index.toNat / 64 ^ (l + 1)) ≠ 0) :
    ∃ heap' ptr', prune index
        ((List.range' (l + 2) d).map fun k => ptr k (index.toNat / 64 ^ k)) (l + 1)
        (ptr (l + 1) (index.toNat / 64 ^ (l + 1))) heap = some heap' ∧
      Holds heap' height root ptr' ∧ ptr' 0 = ptr 0 := by
  induction d generalizing l heap ptr with
  | zero => exact ⟨heap, ptr, rfl, h, rfl⟩
  | succ d ih =>
    obtain ⟨node, hnd, hfil, -⟩ := h.slot_eq hne
    rw [range'_succ, map_cons, prune, hnd, bind_eq_bind, bind_some]
    split
    case isTrue => exact ⟨heap, ptr, rfl, h, rfl⟩
    rename_i hcnt
    have hup := h.prefixes hne 1 (by omega)
    obtain ⟨above, habv, -, -⟩ := h.slot_eq hup
    have hpar : ptr (l + 2) (index.toNat / 64 ^ (l + 2)) ≠
        ptr (l + 1) (index.toNat / 64 ^ (l + 1)) := by
      intro heq
      have := (h.inj _ _ _ _ hup heq).1
      omega
    have hsls : ∀ i, node.slots i = 0 := used_eq_zero.mp (hfil.count ▸ not_not.mp hcnt)
    have hblw : ∀ k, l + 1 = k + 1 → ∀ j < 64,
        ptr k (64 * (index.toNat / 64 ^ (l + 1)) + j) = 0 := by
      intro k hk j hj
      obtain rfl : l = k := by omega
      have := hsls ⟨j, hj⟩
      rwa [hfil.slots] at this
    rw [← prefix_div] at habv
    have hclr := h.clear hne (by omega) hblw habv (slotOf_val (l + 1) index)
      (.inr ⟨by simp, rfl⟩)
    rw [prefix_div] at hclr habv
    have hfree : slabFree heap (ptr (l + 1) (index.toNat / 64 ^ (l + 1)))
        (ptr (l + 2) (index.toNat / 64 ^ (l + 2))) = some above := by
      rw [slabFree, update_of_ne hpar]
      exact habv
    have hlvl : ∀ k b, l + 2 ≤ k →
        ptr.put (l + 1) (index.toNat / 64 ^ (l + 1)) 0 k b = ptr k b :=
      fun k b hk => put_of_level_ne (by omega)
    obtain ⟨heap', ptr', heq, hhd, hits⟩ := ih (l := l + 1) hclr (by omega)
      (by rw [hlvl _ _ le_rfl]; exact hup)
    refine ⟨heap', ptr', ?_, hhd, ?_⟩
    · simp only [hfree, bind_some]
      rw [hlvl _ _ le_rfl] at heq
      rw [← heq]
      congr 1
      refine map_congr_left fun k hk => (hlvl k _ ?_).symm
      have := mem_range'_1.mp hk
      omega
    · rw [hits]
      funext b
      exact put_of_level_ne (by omega)

theorem shrink_spec (h : Holds heap height root ptr) (hpos : 0 < height) :
    ∃ t' ptr', shrink height root heap = some t' ∧ Holds t'.heap t'.height t'.root ptr' ∧
      ptr' 0 = ptr 0 := by
  induction height generalizing root heap ptr with
  | zero => omega
  | succ height ih =>
    cases height with
    | zero => exact ⟨_, ptr, rfl, h, rfl⟩
    | succ height =>
      obtain ⟨-, hrt, hrtd⟩ := h.rooted.resolve_left (by omega)
      obtain ⟨top, htop, hfil⟩ := h.node (height + 1) 0 (hrtd ▸ hrt)
      rw [hrtd] at htop
      rw [shrink, htop, bind_eq_bind, bind_some]
      split
      case isFalse => exact ⟨_, ptr, rfl, h, rfl⟩
      rename_i honly
      obtain ⟨hcnt, hfst⟩ := honly
      have hsls : ∀ i : Fin RADIX_SLOTS, top.slots i = ptr (height + 1) i := by
        intro i
        rw [hfil.slots, mul_zero, zero_add]
      rw [hsls] at hfst ⊢
      have hshrunk := h.shrink (Nat.succ_pos _) hfst (by
        intro b hb
        have hlt := (h.top _ _ hb).2.2
        rw [show height + 1 + 1 - (height + 1) = 1 by omega] at hlt
        -- there is one slot in use, and it is the first
        obtain ⟨j, hj⟩ := Finset.card_eq_one.mp (hfil.count.symm.trans hcnt)
        have hmem : ∀ i, top.slots i ≠ 0 → i = j := by
          intro i hi
          have : i ∈ Finset.univ.filter fun i => top.slots i ≠ 0 := by simp [hi]
          rwa [hj, Finset.mem_singleton] at this
        have hb' := hmem ⟨b, hlt⟩ (by rwa [hsls])
        have h0 := hmem 0 (by rwa [hsls])
        exact congrArg Fin.val (hb'.trans h0.symm))
      obtain ⟨t', ptr', heq, hhd, hits⟩ := ih hshrunk (Nat.succ_pos _)
      refine ⟨t', ptr', heq, hhd, hits.trans ?_⟩
      funext b
      exact put_of_level_ne (by omega)

/-- `radix_remove` returns the item there was, and takes exactly this one away. -/
theorem radixRemove_spec (h : Holds t.heap t.height t.root ptr) (index : BitVec 64) :
    ∃ t' ptr', radixRemove t index = some (ptr 0 index.toNat, t') ∧
      Holds t'.heap t'.height t'.root ptr' ∧
      ptr' 0 = update (ptr 0) index.toNat 0 := by
  have hsame : ptr 0 index.toNat = 0 → ptr 0 = update (ptr 0) index.toNat 0 := by
    intro hnl
    exact (Function.update_eq_self_iff.mpr hnl.symm).symm
  unfold radixRemove
  split
  case isTrue hout =>
    have hnl := h.item_eq_zero hout
    exact ⟨t, ptr, by rw [hnl], h, hsame hnl⟩
  rename_i hin
  obtain ⟨hrt, hfits⟩ := not_or.mp hin
  obtain ⟨hpos, hrtd⟩ := h.root_eq hrt (by simpa using hfits : fits t.height index)
  obtain ⟨level, hlvl⟩ := Nat.exists_eq_succ_of_ne_zero hpos.ne'
  rcases descend_spec h [] (hlvl ▸ Nat.lt_succ_self level) (hlvl ▸ hrtd) hrt with
    ⟨hlf, path, hdes⟩ | ⟨hlf, hdes⟩
  · have hnl : ptr 0 index.toNat = 0 := by
      by_contra hne
      exact h.up 0 _ hne hpos hlf
    rw [← Nat.succ_eq_add_one, ← hlvl] at hdes
    exact ⟨t, ptr, by simp [hdes, hnl], h, hsame hnl⟩
  · rw [← Nat.succ_eq_add_one, ← hlvl] at hdes
    obtain ⟨node, hnd, hfil, hsl⟩ := h.leaf_eq hlf
    by_cases hnl : ptr 0 index.toNat = 0
    · exact ⟨t, ptr, by simp [hdes, hnd, hsl, hnl], h, hsame hnl⟩
    have hclr := h.clear hnl hpos
      (fun l hl => by omega) hnd (by simpa using slotOf_val 0 index) (.inl ⟨rfl, rfl⟩)
    have hlvs : ∀ k b, 0 < k → ptr.put 0 index.toNat 0 k b = ptr k b :=
      fun k b hk => put_of_level_ne (by omega)
    have hleaf' : ptr.put 0 index.toNat 0 (0 + 1) (index.toNat / 64 ^ (0 + 1)) ≠ 0 := by
      simpa [hlvs] using hlf
    obtain ⟨heap1, ptr1, hprune, h1, hit1⟩ :=
      prune_spec (d := level) hclr (by omega) hleaf'
    have hpt : (range' (0 + 2) level).map
        (fun k => ptr.put 0 index.toNat 0 k (index.toNat / 64 ^ k)) =
        nodesTo ptr index.toNat t.height := by
      rw [hlvl]
      refine map_congr_left fun k hk => hlvs k _ ?_
      have := mem_range'_1.mp hk
      omega
    simp only [zero_add, pow_one, hlvs 1 _ (by decide)] at hprune hpt
    rw [hpt] at hprune
    have hits : ptr1 0 = update (ptr 0) index.toNat 0 := hit1.trans (update_self ..)
    obtain ⟨-, -, hrooted1⟩ := h1.rooted.resolve_left (by omega)
    obtain ⟨top, htop, hfills1⟩ := h1.node level 0 (by
      rw [← Nat.succ_eq_add_one, ← hlvl, hrooted1]; exact hrt)
    rw [← Nat.succ_eq_add_one, ← hlvl, hrooted1] at htop
    by_cases hemp : top.count = 0
    · have hblw : ∀ b, ptr1 level b = 0 := by
        intro b
        by_contra hne
        have hlt := (h1.top _ _ hne).2.2
        rw [hlvl, show level.succ - level = 1 by omega] at hlt
        have h0 := used_eq_zero.mp (hfills1.count ▸ hemp) ⟨b, hlt⟩
        rw [hfills1.slots] at h0
        exact hne (by simpa using h0)
      have h1' : Holds heap1 (level + 1) t.root ptr1 := by
        rw [← Nat.succ_eq_add_one, ← hlvl]
        exact h1
      obtain ⟨hnone, h0⟩ := h1'.uproot hblw
      refine ⟨radixInit (slabFree heap1 t.root), fun _ _ => 0,
        by simp [hdes, hlf, hnd, hsl, hnl, hprune, htop, hemp], ?_, ?_⟩
      · have hfree : slabFree heap1 t.root = fun _ => none := funext hnone
        rw [hfree]
        exact .empty
      · rw [← hits]
        funext n
        exact (h0 n).symm
    · obtain ⟨t', ptr', hshrink, hhd, hitems'⟩ := shrink_spec h1 hpos
      exact ⟨t', ptr', by simp [hdes, hlf, hnd, hsl, hnl, hprune, htop, hemp,
        hshrink], hhd, hitems'.trans hits⟩

end Vex.Libk
