import Vex.Libk.RadixOps
import Vex.Lib.Run
import Vex.Lib.Table

/-! The radix tree is a finite map from 64-bit indices to items, and its nodes form a tree. -/

namespace Vex.Libk

open Function List Option

variable {heap : RadixHeap} {height root : Nat} {ptr : Placement}

/-! ## Items in order -/

/-- The items below the prefix `b` of level `l`, with their indices in order. -/
def listing (ptr : Placement) : (l : Nat) → Nat → List (Nat × Nat)
  | 0, b => if ptr 0 b = 0 then [] else [(b, ptr 0 b)]
  | l + 1, b => (List.range 64).flatMap fun i => listing ptr l (64 * b + i)

theorem mem_listing : x ∈ listing ptr l b ↔ x.1 / 64 ^ l = b ∧ ptr 0 x.1 ≠ 0 ∧ x.2 = ptr 0 x.1 := by
  induction l generalizing b with
  | zero =>
    rw [listing, pow_zero, Nat.div_one]
    split
    case isTrue hnl =>
      refine ⟨fun h => (by cases h), ?_⟩
      rintro ⟨rfl, hne, -⟩
      exact absurd hnl hne
    rename_i hne
    rw [mem_singleton]
    constructor
    · rintro rfl
      exact ⟨rfl, hne, rfl⟩
    · rintro ⟨rfl, -, hx⟩
      exact Prod.ext rfl hx
  | succ l ih =>
    simp only [listing, mem_flatMap, mem_range, ih]
    constructor
    · rintro ⟨i, hi, hpre, hx⟩
      rw [← prefix_div]
      omega
    · rintro ⟨rfl, hx⟩
      exact ⟨x.1 / 64 ^ l % 64, Nat.mod_lt _ (by decide), (prefix_split _ _).symm, hx⟩

theorem sorted_listing (l b : Nat) : (listing ptr l b).Pairwise fun x y => x.1 < y.1 := by
  induction l generalizing b with
  | zero =>
    rw [listing]
    split
    · exact .nil
    · exact pairwise_singleton _ _
  | succ l ih =>
    rw [listing, pairwise_flatMap]
    refine ⟨fun i _ => ih _, ?_⟩
    refine pairwise_lt_range.imp fun {i j} hij x hx y hy => ?_
    -- a smaller prefix means a smaller index
    by_contra hle
    have hdiv := Nat.div_le_div_right (c := 64 ^ l) (not_lt.mp hle)
    rw [(mem_listing.mp hx).1, (mem_listing.mp hy).1] at hdiv
    omega

theorem Holds.listing_eq_nil (h : Holds heap height root ptr) (hl : l ≤ height)
    (hnl : ptr l b = 0) : listing ptr l b = [] := by
  rw [eq_nil_iff_forall_not_mem]
  intro x hx
  obtain ⟨rfl, hne, -⟩ := mem_listing.mp hx
  have := h.prefixes (l := 0) (by simpa using hne) l (by omega)
  rw [zero_add] at this
  exact this hnl

/-! ## Walking -/

/-- The items from `start` on. -/
def listingFrom (ptr : Placement) (start l b : Nat) : List (Nat × Nat) :=
  (listing ptr l b).filter (start ≤ ·.1)

/-- A pair as the walk stores it. -/
def stored (x : Nat × Nat) : BitVec 64 × Nat := (BitVec.ofNat 64 x.1, x.2)

theorem gatherSlots_spec {max : Nat} (items : Fin RADIX_SLOTS → List (Nat × Nat))
    {slots : List (Fin RADIX_SLOTS)}
    (htn : ∀ i ∈ slots, ∀ found, gatherSlot below level (BitVec.ofNat 64 base) max node found i =
      some (found ++ ((items i).take (max - found.length)).map stored))
    (found : List (BitVec 64 × Nat)) :
    slots.foldlM (gatherSlot below level (BitVec.ofNat 64 base) max node) found =
      some (found ++ ((slots.flatMap items).take (max - found.length)).map stored) := by
  induction slots generalizing found with
  | nil => simp
  | cons i slots ih =>
    rw [foldlM_cons, htn i mem_cons_self, bind_eq_bind, bind_some,
      ih fun j hj => htn j (mem_cons_of_mem i hj), flatMap_cons, take_append,
      map_append, ← append_assoc]
    congr 4
    rw [length_append, length_map, length_take]
    omega

theorem firstSlot_eq (hbs : b * 64 ^ (level + 1) < 2 ^ 64) :
    firstSlot (level + 1) (BitVec.ofNat 64 (b * 64 ^ (level + 1))) start =
      (start.toNat - b * 64 ^ (level + 1)) / 64 ^ level := by
  have hofNat : (BitVec.ofNat 64 (b * 64 ^ (level + 1))).toNat = b * 64 ^ (level + 1) := by
    rw [BitVec.toNat_ofNat, Nat.mod_eq_of_lt hbs]
  unfold firstSlot
  split
  case isTrue hlt =>
    have hle : BitVec.ofNat 64 (b * 64 ^ (level + 1)) ≤ start := BitVec.le_of_lt hlt
    rw [BitVec.toNat_ushiftRight, Nat.shiftRight_eq_div_pow, BitVec.toNat_sub_of_le hle, hofNat,
      Nat.add_sub_cancel, pow_64 level]
  case isFalse hge =>
    have hle : start.toNat ≤ b * 64 ^ (level + 1) := by
      rw [← hofNat]
      exact BitVec.le_def.mp (BitVec.not_lt.mp hge)
    rw [Nat.sub_eq_zero_of_le hle, Nat.zero_div]

/-- Slots before the first hold only indices before `start`. -/
theorem flatMap_drop_firstSlot (ptr : Placement) (start level b : Nat) :
    ((List.finRange RADIX_SLOTS).drop ((start - b * 64 ^ (level + 1)) / 64 ^ level)).flatMap
        (fun i : Fin RADIX_SLOTS => listingFrom ptr start level (64 * b + i.val)) =
      listingFrom ptr start (level + 1) b := by
  set first := (start - b * 64 ^ (level + 1)) / 64 ^ level with hfst
  have hall : listingFrom ptr start (level + 1) b =
      (finRange RADIX_SLOTS).flatMap fun i : Fin RADIX_SLOTS =>
        listingFrom ptr start level (64 * b + i.val) := by
    rw [listingFrom, listing, filter_flatMap]
    rfl
  have hbef : ((finRange RADIX_SLOTS).take first).flatMap
      (fun i : Fin RADIX_SLOTS => listingFrom ptr start level (64 * b + i.val)) = [] := by
    rw [flatMap_eq_nil_iff]
    intro i hi
    obtain ⟨j, hj, rfl⟩ := mem_take_iff_getElem.mp hi
    have hlt : j < first := (lt_min_iff.mp hj).1
    rw [listingFrom, filter_eq_nil_iff]
    intro x hx
    have hpre := (mem_listing.mp hx).1
    rw [getElem_finRange, Fin.val_cast] at hpre
    -- the index is below the end of its slot, and that is not past `start`
    have hend : x.1 < (64 * b + j + 1) * 64 ^ level := by
      rw [← hpre]
      exact Nat.lt_mul_of_div_lt (Nat.lt_succ_self _) (Nat.pow_pos (by decide))
    have hsl : (j + 1) * 64 ^ level ≤ start - b * 64 ^ (level + 1) :=
      (Nat.mul_le_mul_right _ hlt).trans (Nat.div_mul_le_self _ _)
    have hsum : (64 * b + j + 1) * 64 ^ level = b * 64 ^ (level + 1) + (j + 1) * 64 ^ level := by
      ring
    have hpos : 0 < 64 ^ level := Nat.pow_pos (by decide)
    have hle : 64 ^ level ≤ (j + 1) * 64 ^ level := Nat.le_mul_of_pos_left _ (Nat.succ_pos _)
    simp only [decide_eq_true_eq]
    omega
  conv_rhs => rw [hall, ← take_append_drop first (finRange RADIX_SLOTS),
    flatMap_append, hbef, nil_append]

section
variable (h : Holds heap height root ptr) (start : BitVec 64)
include h start

variable {level b : Nat}

theorem gatherSlot_spec {max : Nat} (hlvl : level < height) (hfil : Fills node ptr level b)
    (hblw : ∀ c max, 0 < level → ptr level c ≠ 0 →
      gatherSubtree heap start level (ptr level c) (BitVec.ofNat 64 (c * 64 ^ level)) max =
        some (((listingFrom ptr start.toNat level c).take max).map stored))
    (hi : (start.toNat - b * 64 ^ (level + 1)) / 64 ^ level ≤ i.val)
    (found : List (BitVec 64 × Nat)) :
    gatherSlot (gatherSubtree heap start level) (level + 1)
        (BitVec.ofNat 64 (b * 64 ^ (level + 1))) max node found i =
      some (found ++ ((listingFrom ptr start.toNat level (64 * b + i.val)).take
        (max - found.length)).map stored) := by
  unfold gatherSlot
  rw [hfil.slots]
  split
  case isFalse hsk =>
    by_cases hfu : found.length < max
    · have hnl : ptr level (64 * b + i.val) = 0 := by
        by_contra hne
        exact hsk ⟨hfu, hne⟩
      rw [listingFrom, h.listing_eq_nil hlvl.le hnl]
      simp
    · simp [Nat.sub_eq_zero_of_le (not_lt.mp hfu)]
  rename_i htk
  obtain ⟨hfu, hne⟩ := htk
  have hbs : BitVec.ofNat 64 (b * 64 ^ (level + 1)) +
      BitVec.ofNat 64 i.val <<< ((level + 1 - 1) * RADIX_SHIFT) =
      BitVec.ofNat 64 ((64 * b + i.val) * 64 ^ level) := by
    apply BitVec.eq_of_toNat_eq
    simp only [Nat.add_sub_cancel, BitVec.toNat_add, BitVec.toNat_ofNat, BitVec.toNat_shiftLeft,
      Nat.shiftLeft_eq, ← pow_64 level, Nat.mod_mul_mod, Nat.add_mod_mod, Nat.mod_add_mod]
    congr 1
    ring
  simp only [hbs]
  split
  case isTrue hpos =>
    rw [hblw _ _ (by omega) hne]
    rfl
  rename_i hlast
  obtain rfl : level = 0 := by omega
  have hsta : start.toNat ≤ 64 * b + i.val := by omega
  have hrm : 0 < max - found.length := by omega
  obtain ⟨room, hrm⟩ := Nat.exists_eq_succ_of_ne_zero hrm.ne'
  simp [listingFrom, listing, hne, hsta, hrm, stored]

theorem gatherNode_spec (max : Nat) (hlvl : level < height) (hne : ptr (level + 1) b ≠ 0)
    (hblw : ∀ c max, 0 < level → ptr level c ≠ 0 →
      gatherSubtree heap start level (ptr level c) (BitVec.ofNat 64 (c * 64 ^ level)) max =
        some (((listingFrom ptr start.toNat level c).take max).map stored)) :
    gatherSubtree heap start (level + 1) (ptr (level + 1) b)
        (BitVec.ofNat 64 (b * 64 ^ (level + 1))) max =
      some (((listingFrom ptr start.toNat (level + 1) b).take max).map stored) := by
  obtain ⟨node, hnd, hfil⟩ := h.node level b hne
  rw [gatherSubtree, hnd, bind_eq_bind, bind_some,
    firstSlot_eq (h.small _ _ hne), gatherSlots_spec (fun i =>
      listingFrom ptr start.toNat level (64 * b + i.val))]
  · rw [flatMap_drop_firstSlot]
    rfl
  intro i hi found
  refine gatherSlot_spec h start hlvl hfil hblw ?_ found
  obtain ⟨j, hj, rfl⟩ := mem_drop_iff_getElem.mp hi
  rw [getElem_finRange]
  exact Nat.le_add_right _ _

theorem gatherSubtree_spec (max : Nat) (hlvl : level < height) (hne : ptr (level + 1) b ≠ 0) :
    gatherSubtree heap start (level + 1) (ptr (level + 1) b)
        (BitVec.ofNat 64 (b * 64 ^ (level + 1))) max =
      some (((listingFrom ptr start.toNat (level + 1) b).take max).map stored) := by
  induction level generalizing b max with
  | zero => exact gatherNode_spec h start max hlvl hne fun _ _ hpos => absurd hpos (by decide)
  | succ level ih =>
    exact gatherNode_spec h start max hlvl hne fun c max _ hc => ih max (by omega) hc

end

/-- `radix_gather` stores the first items from `start` on, in order. -/
theorem radixGather_eq (h : Holds t.heap t.height t.root ptr) (start : BitVec 64) (max : Nat) :
    radixGather t start max =
      some (((listingFrom ptr start.toNat t.height 0).take max).map stored) := by
  unfold radixGather
  split
  case isTrue hout =>
    by_cases hmax : max = 0
    · simp [hmax]
    have hnone : listingFrom ptr start.toNat t.height 0 = [] := by
      rw [listingFrom, filter_eq_nil_iff]
      intro x hx
      obtain ⟨-, hne, -⟩ := mem_listing.mp hx
      obtain ⟨hpos, -, hlt⟩ := h.top 0 x.1 hne
      rcases hout with hrt | h0 | hfits
      · exact absurd hrt (h.rooted.resolve_left (by omega)).2.1
      · exact absurd h0 hmax
      have hge : ¬start.toNat < 64 ^ t.height := fun hlt => by
        rw [fits_iff.mpr hlt] at hfits
        cases hfits
      rw [Nat.sub_zero] at hlt
      simp only [decide_eq_true_eq]
      omega
    simp [hnone]
  rename_i hin
  obtain ⟨hrt, -⟩ := not_or.mp hin
  obtain ⟨hpos, -, hrtd⟩ := h.rooted.resolve_left fun hemp => hrt hemp.2
  obtain ⟨level, hlvl⟩ := Nat.exists_eq_succ_of_ne_zero hpos.ne'
  rw [← hrtd, hlvl]
  have hne : ptr (level + 1) 0 ≠ 0 := by
    rw [← Nat.succ_eq_add_one, ← hlvl, hrtd]
    exact hrt
  have := gatherSubtree_spec h start max (hlvl ▸ Nat.lt_succ_self level) hne
  rwa [Nat.zero_mul] at this

/-! ## Enough memory -/

/-- The allocator's next `need` answers are different addresses that nothing lives at. -/
structure Ample (heap : RadixHeap) (supply : Supply) (need : Nat) : Prop where
  enough : need ≤ supply.length
  fresh : ∀ answer ∈ supply, ∃ p, answer = some p ∧ p ≠ 0 ∧ heap p = none
  distinct : supply.Nodup

namespace Ample

variable {supply : Supply} {n : Nat}

theorem mono (h : Ample heap supply n) (hm : m ≤ n) : Ample heap supply m :=
  ⟨hm.trans h.enough, h.fresh, h.distinct⟩

theorem alloc (h : Ample heap supply (n + 1)) :
    (slabAlloc heap supply).1 ≠ 0 ∧ heap (slabAlloc heap supply).1 = none ∧
      ∀ node, Ample (update heap (slabAlloc heap supply).1 node)
        (slabAlloc heap supply).2 n := by
  cases supply with
  | nil => exact absurd h.enough (by simp)
  | cons answer supply =>
    obtain ⟨p, rfl, hp, hfree⟩ := h.fresh answer mem_cons_self
    obtain ⟨hnot, hndp⟩ := nodup_cons.mp h.distinct
    simp only [slabAlloc, hfree, isSome_none, Bool.false_eq_true, if_false]
    refine ⟨hp, trivial, fun node => ⟨Nat.le_of_succ_le_succ h.enough, ?_, hndp⟩⟩
    intro answer hans
    obtain ⟨q, rfl, hq, hqfree⟩ := h.fresh answer (mem_cons_of_mem _ hans)
    have hqp : q ≠ p := fun heq => hnot (heq ▸ hans)
    exact ⟨q, rfl, hq, by rwa [update_of_ne hqp]⟩

theorem update (h : Ample heap supply n) (hlive : (heap p).isSome) (node : RadixNode) :
    Ample (update heap p (some node)) supply n := by
  refine ⟨h.enough, fun answer hans => ?_, h.distinct⟩
  obtain ⟨q, rfl, hq, hqfree⟩ := h.fresh answer hans
  have hqp : q ≠ p := by
    rintro rfl
    simp [hqfree] at hlive
  exact ⟨q, rfl, hq, by rwa [update_of_ne hqp]⟩

end Ample

theorem plant_ample (index : BitVec 64) (h : Ample t.heap supply (n + 1)) :
    ∃ t' supply', plant t index supply = (.ok (), t', supply') ∧ Ample t'.heap supply' n := by
  unfold plant
  split
  case isTrue =>
    obtain ⟨hne, -, hrs⟩ := h.alloc
    simp only [if_neg hne]
    exact ⟨_, _, rfl, hrs _⟩
  case isFalse => exact ⟨t, supply, rfl, h.mono (Nat.le_succ n)⟩

theorem grow_ample (index : BitVec 64) (h : Ample t.heap supply (n + (RADIX_MAX_DEPTH - t.height)))
    : ∃ t' supply', grow index supply t = (.ok (), t', supply') ∧ Ample t'.heap supply' n := by
  have hht : ∀ {height : Nat}, fits height index = false → height < RADIX_MAX_DEPTH := by
    intro height hfits
    by_contra hge
    have : fits height index := fits_iff.mpr <| calc
      index.toNat < 2 ^ 64 := index.isLt
      _ ≤ 64 ^ RADIX_MAX_DEPTH := by decide
      _ ≤ 64 ^ height := Nat.pow_le_pow_right (by decide) (not_lt.mp hge)
    rw [hfits] at this
    cases this
  induction supply generalizing t with
  | nil =>
    refine ⟨t, [], ?_, h.mono (Nat.le_add_right _ _)⟩
    rw [grow]
    cases hfits : fits t.height index with
    | true => rfl
    | false =>
      have := hht hfits
      have := h.enough
      simp only [length_nil] at this
      omega
  | cons answer supply ih =>
    rw [grow]
    cases hfits : fits t.height index with
    | true => exact ⟨t, _, rfl, h.mono (Nat.le_add_right _ _)⟩
    | false =>
      have hlt := hht hfits
      obtain ⟨need, hneed⟩ : ∃ need, RADIX_MAX_DEPTH - t.height = need + 1 :=
        Nat.exists_eq_add_of_le' (by omega)
      rw [hneed] at h
      obtain ⟨hne, -, hrs⟩ := h.alloc
      have hsup : (slabAlloc t.heap (answer :: supply)).2 = supply := by
        cases answer with
        | none => rfl
        | some p => rfl
      rw [hsup] at hrs
      simp only [if_neg hne]
      refine ih ?_
      rw [show RADIX_MAX_DEPTH - (t.height + 1) = need by omega]
      exact hrs _

theorem reach_ample (h : Ample heap supply level)
    (heq : reach index (level + 1) p heap supply = some (r, heap')) : ∃ leaf, r = .ok leaf := by
  induction level generalizing p heap supply with
  | zero =>
    cases heq
    exact ⟨p, rfl⟩
  | succ level ih =>
    obtain ⟨node, hnd, heq⟩ := bind_eq_some_iff.mp heq
    obtain ⟨hne, -, hrs⟩ := h.alloc
    simp only [if_neg hne] at heq
    split at heq
    · refine ih ((hrs _).update ?_ _) heq
      by_cases hp : p = (slabAlloc heap supply).1
      · rw [← hp, update_self]
        rfl
      · rw [update_of_ne hp, hnd]
        rfl
    · exact ih (h.mono (Nat.le_succ _)) heq

/-- With memory for every node it could need, `radix_insert` does not run out. -/
theorem radixInsert_ample (h : Holds t.heap t.height t.root ptr) (hit : item ≠ 0)
    (hsup : Ample t.heap supply (2 * RADIX_MAX_DEPTH)) (index : BitVec 64) :
    ∃ r t', radixInsert t index item supply = some (r, t') ∧ r ≠ .error .ENOMEM := by
  obtain ⟨t1, supply1, hpla, hsupply1⟩ := plant_ample index hsup
  obtain ⟨_, _, _, ptr1, hplant', h1, -, hrt1⟩ := plant_spec index h supply
  cases hpla.symm.trans hplant'
  have hrt1 : t1.root ≠ 0 := by simpa using hrt1
  obtain ⟨t2, supply2, hgrow, hsupply2⟩ := grow_ample index
    (hsupply1.mono (Nat.add_le_add_left (Nat.sub_le _ _) 10))
  obtain ⟨_, _, _, ptr2, hgrow', h2, -, hrt2, hfits⟩ := grow_spec index h1 hrt1 supply1
  cases hgrow.symm.trans hgrow'
  have hfits : fits t2.height index := by simpa using hfits
  obtain ⟨hpos, hrtd⟩ := h2.root_eq hrt2 hfits
  obtain ⟨level, hlvl⟩ := Nat.exists_eq_succ_of_ne_zero hpos.ne'
  have hle : level ≤ 10 := Nat.le_of_succ_le_succ (hlvl ▸ h2.height_le)
  obtain ⟨r3, heap3, ptr3, hrea, h3, -, hr3⟩ :=
    reach_spec h2 supply2 (hlvl ▸ Nat.lt_succ_self level) (hlvl ▸ hrtd) hrt2
  obtain ⟨leaf, rfl⟩ := reach_ample (hsupply2.mono hle) hrea
  obtain ⟨hlf, hne⟩ : leaf = ptr3 1 (index.toNat / 64) ∧ ptr3 1 (index.toNat / 64) ≠ 0 := by
    simpa using hr3
  obtain ⟨r4, heap4, ptr4, hplc, -, hr4⟩ := place_spec h3 hit hne
  rw [← Nat.succ_eq_add_one, ← hlvl] at hrea
  rw [← hlf] at hplc
  refine ⟨r4, { t2 with heap := heap4 },
    by rw [radixInsert, hpla]; simp [hgrow, hrea, hplc], ?_⟩
  rcases hr4 with ⟨-, rfl, -⟩ | ⟨-, rfl, -⟩
  · exact fun hcon => by cases hcon
  · exact fun hcon => by cases hcon

/-! ## The nodes -/

/-- A node of the tree and the level it is at. -/
inductive NodeAt (t : RadixTree) : (level : Nat) → Nat → Prop
  | root : t.root ≠ 0 → NodeAt t t.height t.root
  | child {level p : Nat} {node : RadixNode} {slot : Fin RADIX_SLOTS} : NodeAt t (level + 2) p →
      t.heap p = some node → node.slots slot ≠ 0 → NodeAt t (level + 1) (node.slots slot)

/-- The slot of a node above the last level refers to `q`. -/
def Refers (t : RadixTree) (r : Nat × Fin RADIX_SLOTS) (q : Nat) : Prop :=
  ∃ level node, NodeAt t (level + 2) r.1 ∧ t.heap r.1 = some node ∧ node.slots r.2 = q

/-- The nodes in memory are those of the tree, each but the root is referred to by exactly one
slot, the root by none, and each counts its slots in use. -/
structure WellLinked (t : RadixTree) : Prop where
  live : ∀ p, (t.heap p).isSome ↔ ∃ level, NodeAt t level p
  root : t.root ≠ 0 → ∀ r, ¬Refers t r t.root
  referred : ∀ p level, NodeAt t level p → p ≠ t.root → ∃! r, Refers t r p
  count : ∀ p node, t.heap p = some node →
    node.count = (Finset.univ.filter fun i => node.slots i ≠ 0).card

namespace Holds

variable {t : RadixTree}

section
variable (h : Holds t.heap t.height t.root ptr)
include h

theorem nodeAt_iff : NodeAt t level p ↔ p ≠ 0 ∧ ∃ l b, level = l + 1 ∧ ptr (l + 1) b = p := by
  constructor
  · intro hnd
    induction hnd with
    | root hrt =>
      obtain ⟨hpos, -, hrtd⟩ := h.rooted.resolve_left fun hemp => hrt hemp.2
      obtain ⟨l, hl⟩ := Nat.exists_eq_succ_of_ne_zero hpos.ne'
      exact ⟨hrt, l, 0, hl, by rw [← Nat.succ_eq_add_one, ← hl, hrtd]⟩
    | @child level p node slot _ hnd hsl ih =>
      obtain ⟨hp, l, b, hl, rfl⟩ := ih
      obtain ⟨node', hnd', hfil⟩ := h.node l b hp
      cases hnd.symm.trans hnd'
      obtain rfl : l = level + 1 := by omega
      exact ⟨hsl, level, 64 * b + slot.val, rfl, (hfil.slots slot).symm⟩
  · rintro ⟨hp, l, b, rfl, rfl⟩
    -- down from the root, one level at a time
    obtain ⟨-, hl, -⟩ := h.top _ _ hp
    obtain ⟨d, hd⟩ := Nat.exists_eq_add_of_le hl
    induction d generalizing l b with
    | zero =>
      obtain ⟨hpos, hrt, hrtd⟩ := h.rooted.resolve_left (by omega)
      have hb := (h.top _ _ hp).2.2
      rw [hd, show l + 1 + 0 - (l + 1) = 0 by omega] at hb
      rw [show b = 0 by omega, show l + 1 = t.height by omega, hrtd]
      exact .root hrt
    | succ d ih =>
      have hup := h.up _ _ hp (by omega)
      obtain ⟨node, hnd, hfil⟩ := h.node _ _ hup
      have hsl : node.slots ⟨b % 64, Nat.mod_lt _ (by decide)⟩ = ptr (l + 1) b := by
        rw [hfil.slots, Nat.div_add_mod]
      rw [← hsl]
      exact .child (ih (l + 1) (b / 64) hup (by omega) (by omega)) hnd (hsl ▸ hp)

theorem refers_iff (hne : ptr (l + 1) b ≠ 0) :
    Refers t r (ptr (l + 1) b) ↔
      r.1 ≠ 0 ∧ r.1 = ptr (l + 2) (b / 64) ∧ r.2.val = b % 64 := by
  constructor
  · rintro ⟨level, node, hnodeAt, hnd, hsl⟩
    obtain ⟨hp, l', b', hl', hptr⟩ := h.nodeAt_iff.mp hnodeAt
    obtain rfl : l' = level + 1 := by omega
    rw [← hptr] at hp hnd
    obtain ⟨node', hnd', hfil⟩ := h.node _ _ hp
    cases hnd.symm.trans hnd'
    rw [hfil.slots] at hsl
    obtain ⟨rfl, hb⟩ := h.inj _ _ _ _ (hsl ▸ hne) hsl
    have hlt : r.2.val < 64 := r.2.isLt
    refine ⟨hptr ▸ hp, ?_, by omega⟩
    rw [← hptr, show b / 64 = b' by omega]
  · rintro ⟨hr, hp, hsl⟩
    rw [hp] at hr
    obtain ⟨node, hnd, hfil⟩ := h.node _ _ hr
    refine ⟨l, node, h.nodeAt_iff.mpr ⟨hp ▸ hr, l + 1, _, rfl, hp.symm⟩, hp ▸ hnd, ?_⟩
    rw [hfil.slots, hsl, Nat.div_add_mod]

theorem wellLinked : WellLinked t where
  live p := by
    constructor
    · intro hlive
      obtain ⟨hp, l, b, hptr⟩ := h.live p hlive
      exact ⟨l + 1, h.nodeAt_iff.mpr ⟨hp, l, b, rfl, hptr⟩⟩
    · rintro ⟨level, hnd⟩
      obtain ⟨hp, l, b, -, rfl⟩ := h.nodeAt_iff.mp hnd
      exact h.isSome hp
  root hrt r hrefers := by
    obtain ⟨hpos, -, hrtd⟩ := h.rooted.resolve_left fun hemp => hrt hemp.2
    obtain ⟨l, hl⟩ := Nat.exists_eq_succ_of_ne_zero hpos.ne'
    rw [hl] at hrtd
    rw [← hrtd] at hrefers hrt
    obtain ⟨hr, hp, -⟩ := (h.refers_iff hrt).mp hrefers
    have := (h.top _ _ (hp ▸ hr)).2.1
    omega
  referred p level hnd hne := by
    obtain ⟨hp, l, b, rfl, rfl⟩ := h.nodeAt_iff.mp hnd
    have hl : l + 1 < t.height := by
      obtain ⟨hpos, hl, hb⟩ := h.top _ _ hp
      by_contra hge
      obtain ⟨-, -, hrtd⟩ := h.rooted.resolve_left (by omega)
      rw [show t.height - (l + 1) = 0 by omega] at hb
      exact hne (by rw [← hrtd, show b = 0 by omega, show t.height = l + 1 by omega])
    refine ⟨(ptr (l + 2) (b / 64), ⟨b % 64, Nat.mod_lt _ (by decide)⟩),
      (h.refers_iff hp).mpr ⟨h.up _ _ hp hl, rfl, rfl⟩, ?_⟩
    rintro ⟨q, slot⟩ hr
    obtain ⟨-, hq, hsl⟩ := (h.refers_iff hp).mp hr
    exact Prod.ext hq (Fin.ext hsl)
  count p node hnd := by
    obtain ⟨hp, l, b, rfl⟩ := h.live p (by simp [hnd])
    obtain ⟨node', hnd', hfil⟩ := h.node l b hp
    cases hnd.symm.trans hnd'
    exact hfil.count

end

end Holds

/-! ## The map -/

/-- The operations; an item is not null. -/
inductive RadixOp
  | insert (index : BitVec 64) (item : {p : Nat // p ≠ 0}) (supply : Supply)
  | lookup (index : BitVec 64)
  | remove (index : BitVec 64)
  | gather (start : BitVec 64) (max : Nat)

inductive RadixResult
  | inserted (result : Except Errno Unit)
  | item (p : Nat)
  | items (found : List (BitVec 64 × Nat))

def radixStep (t : RadixTree) : RadixOp → Option (RadixResult × RadixTree)
  | .insert index item supply => do
    let (result, t) ← radixInsert t index item supply
    some (.inserted result, t)
  | .lookup index => do
    let item ← radixLookup t index
    some (.item item, t)
  | .remove index => do
    let (item, t) ← radixRemove t index
    some (.item item, t)
  | .gather start max => do
    let found ← radixGather t start max
    some (.items found, t)

/-- What the operations mean on a finite map: an item that is not there is null, and an insert
may fail for want of memory, where there is nothing yet. -/
inductive MapStep : Lib.Table Nat → RadixOp × RadixResult → Lib.Table Nat → Prop
  | inserted {m index item supply} : m.get index.toNat = none →
      MapStep m (.insert index item supply, .inserted (.ok ())) (m.put index.toNat item)
  | present {m index item supply} {p : Nat} : m.get index.toNat = some p →
      MapStep m (.insert index item supply, .inserted (.error .EEXIST)) m
  | failed {m index item supply} : m.get index.toNat = none →
      MapStep m (.insert index item supply, .inserted (.error .ENOMEM)) m
  | lookup {m index} : MapStep m (.lookup index, .item ((m.get index.toNat).getD 0)) m
  | remove {m index} : MapStep m (.remove index, .item ((m.get index.toNat).getD 0))
      (m.erase index.toNat)
  | gather {m start max} : MapStep m (.gather start max,
      .items (((m.entries.filter (start.toNat ≤ ·.1)).take max).map stored)) m

/-- The tree holds the map. -/
def Represents (t : RadixTree) (m : Lib.Table Nat) : Prop :=
  ∃ ptr, Holds t.heap t.height t.root ptr ∧
    ∀ k, m.get k = if ptr 0 k = 0 then none else some (ptr 0 k)

theorem entries_eq_listing {t : RadixTree} {m : Lib.Table Nat}
    (h : Holds t.heap t.height t.root ptr)
    (hget : ∀ k, m.get k = if ptr 0 k = 0 then none else some (ptr 0 k)) :
    m.entries = listing ptr t.height 0 := by
  refine Lib.Table.entries_eq (sorted_listing _ _) fun k a => ?_
  rw [mem_listing, hget k]
  constructor
  · rintro ⟨-, hne, ha⟩
    rw [if_neg hne, show a = ptr 0 k from ha]
  intro hget
  split at hget
  case isTrue => cases hget
  case isFalse hne =>
    have hlt := (h.top 0 k hne).2.2
    exact ⟨Nat.div_eq_of_lt (by simpa using hlt), hne, (some.inj hget).symm⟩

/-- Every operation returns, and does on the tree what it means on the map. -/
theorem Represents.step {t : RadixTree} {m : Lib.Table Nat} (h : Represents t m) (op : RadixOp) :
    ∃ result t' m', radixStep t op = some (result, t') ∧ MapStep m (op, result) m' ∧
      Represents t' m' := by
  obtain ⟨ptr, hhd, hget⟩ := h
  have hgetD : ∀ k, (m.get k).getD 0 = ptr 0 k := by
    intro k
    rw [hget k]
    split
    case isTrue hnl => exact hnl.symm
    case isFalse => rfl
  have hsame : ∀ {ptr' : Placement}, ptr' 0 = ptr 0 →
      ∀ k, m.get k = if ptr' 0 k = 0 then none else some (ptr' 0 k) :=
    fun hits k => by rw [hits, hget k]
  cases op with
  | insert index item supply =>
    obtain ⟨r, t', ptr', hinsert, hhd', hr⟩ := radixInsert_spec hhd item.2 supply
    have hst : radixStep t (.insert index item supply) = some (.inserted r, t') := by
      rw [radixStep, hinsert]
      rfl
    rcases hr with ⟨hnl, rfl, hits⟩ | ⟨hnl, rfl, hits⟩ | ⟨hne, rfl, hits⟩
    · refine ⟨_, t', _, hst, .inserted (by rw [hget, if_pos hnl]), ptr', hhd', fun k => ?_⟩
      rw [Lib.Table.get_put, hits, update_apply]
      by_cases hk : index.toNat = k
      · simp [hk, item.2]
      · rw [if_neg hk, if_neg (Ne.symm hk), hget k]
    · exact ⟨_, t', m, hst, .failed (by rw [hget, if_pos hnl]), ptr', hhd', hsame hits⟩
    · exact ⟨_, t', m, hst, .present (by rw [hget, if_neg hne]), ptr', hhd', hsame hits⟩
  | lookup index =>
    have hst : radixStep t (.lookup index) =
        some (.item ((m.get index.toNat).getD 0), t) := by
      rw [radixStep, radixLookup_eq hhd, hgetD]
      rfl
    exact ⟨_, t, m, hst, .lookup, ptr, hhd, hget⟩
  | remove index =>
    obtain ⟨t', ptr', hrem, hhd', hits⟩ := radixRemove_spec hhd index
    have hst : radixStep t (.remove index) =
        some (.item ((m.get index.toNat).getD 0), t') := by
      rw [radixStep, hrem, hgetD]
      rfl
    refine ⟨_, t', _, hst, .remove, ptr', hhd', fun k => ?_⟩
    rw [Lib.Table.get_erase, hits, update_apply]
    by_cases hk : index.toNat = k
    · simp [hk]
    · rw [if_neg hk, if_neg (Ne.symm hk), hget k]
  | gather start max =>
    have hst : radixStep t (.gather start max) =
        some (.items (((m.entries.filter (start.toNat ≤ ·.1)).take max).map stored), t) := by
      rw [radixStep, radixGather_eq hhd, entries_eq_listing hhd hget]
      rfl
    exact ⟨_, t, m, hst, .gather, ptr, hhd, hget⟩

theorem Represents.trace (h : Represents t m) (ops : List RadixOp) :
    ∃ results t' m', Lib.trace radixStep t ops = some (results, t') ∧
      Lib.Run MapStep m results m' ∧ Represents t' m' := by
  induction ops generalizing t m with
  | nil => exact ⟨[], t, m, rfl, .nil, h⟩
  | cons op ops ih =>
    obtain ⟨result, t1, m1, hst, hmap, h1⟩ := h.step op
    obtain ⟨results, t', m', htra, hrun, h'⟩ := ih h1
    refine ⟨(op, result) :: results, t', m', ?_, .cons hmap hrun, h'⟩
    rw [Lib.trace, hst, bind_some, htra]
    rfl

/-- **The radix tree refines a finite map.** Every sequence of operations on an empty tree, with
any answers of the allocator, returns what the map returns; the nodes are linked as a tree; and
an insert fails only for want of memory or because the index is taken. -/
theorem radix_refines_map (ops : List RadixOp) :
    ∃ results t m, Lib.trace radixStep (radixInit fun _ => none) ops = some (results, t) ∧
      Lib.Run MapStep .empty results m ∧ WellLinked t ∧
      ∀ index item supply, item ≠ 0 → Ample t.heap supply (2 * RADIX_MAX_DEPTH) →
        ∃ r t', radixInsert t index item supply = some (r, t') ∧ r ≠ .error .ENOMEM := by
  have hempty : Represents (radixInit fun _ => none) .empty :=
    ⟨fun _ _ => 0, .empty, fun _ => rfl⟩
  obtain ⟨results, t, m, htrace, hrun, ptr, hholds, -⟩ := hempty.trace ops
  exact ⟨results, t, m, htrace, hrun, hholds.wellLinked, fun index item supply hitem hsupply =>
    radixInsert_ample hholds hitem hsupply index⟩

end Vex.Libk
