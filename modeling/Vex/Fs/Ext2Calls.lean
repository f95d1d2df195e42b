import Vex.Fs.Ext2Books

/-! What each call of the ext2 allocator does to the books. A call that succeeds flips one bit of
one bitmap and replaces one descriptor and the superblock: `Rebooks`. From that each call is read
as a unit taken from a pool or put back, with the other pool the same. -/

namespace Vex.Fs.Ext2

open Lib Field Context Kind Desc

variable {c c' c'' : Context} {κ κ' : Kind} {g h k j now ino : Nat} {v : Bool}
  {desc sup : Bytes}

/-- `c'` is `c` with unit `k` of group `g` marked `v`, and with `desc` and `sup` as the descriptor
of the group and the superblock, but for the time stamp. -/
structure Rebooks (c : Context) (κ : Kind) (g k : Nat) (v : Bool) (desc sup : Bytes)
    (c' : Context) : Prop where
  layout : c'.layout = c.layout
  groups : ∀ h, c'.groups h = if h = g then desc else c.groups h
  super : ∀ f : Field, f.Apart Super.wtime → f.get c'.super = f.get sup
  stored : c.Stored → c'.Stored
  bits : ∀ κ', ∀ h < c.groupsCount, ∀ j < c.blockSize * 8,
    c'.bit (c.layout.bitmap κ' h) j =
      if κ' = κ ∧ h = g ∧ j = k then v else c.bit (c.layout.bitmap κ' h) j

/-! The counts of the two kinds are different fields, and no field the places depend on. -/

theorem Kind.freeField_apart (hne : κ' ≠ κ) : κ'.freeField.Apart κ.freeField := by
  cases κ <;> cases κ' <;> first | exact absurd rfl hne | decide

theorem Kind.totalField_apart (hne : κ' ≠ κ) : κ'.totalField.Apart κ.totalField := by
  cases κ <;> cases κ' <;> first | exact absurd rfl hne | decide

theorem Kind.blocksCount_put (κ : Kind) (b : Bytes) (n : Nat) :
    Super.blocksCount.get (κ.totalField.put b n) = Super.blocksCount.get b :=
  get_put_of_apart (by cases κ <;> decide)

theorem Kind.inodesCount_put (κ : Kind) (b : Bytes) (n : Nat) :
    Super.inodesCount.get (κ.totalField.put b n) = Super.inodesCount.get b :=
  get_put_of_apart (by cases κ <;> decide)

theorem Kind.samePlaces_put (κ : Kind) (d : Bytes) (n : Nat) :
    Context.SamePlaces d (κ.freeField.put d n) := .put (by cases κ <;> decide) d n

theorem Kind.usedDirs_put (κ : Kind) (d : Bytes) (n : Nat) :
    usedDirsCount.get (κ.freeField.put d n) = usedDirsCount.get d :=
  get_put_of_apart (by cases κ <;> decide)

namespace Rebooks

/-- A bit flipped by a write inside its bitmap block, then the counts committed. -/
theorem of_touches (hs : c.layout.Sound) (hg : g < c.groupsCount)
    (ht : c.Touches (c.blockSize * c.layout.bitmap κ g) c.blockSize c1)
    (hbit : ∀ j, c1.bit (c.layout.bitmap κ g) j =
      if j = k then v else c.bit (c.layout.bitmap κ g) j)
    (hd : Context.SamePlaces (c.groups g) desc) :
    Rebooks c κ g k v desc (κ.totalField.put c.super n)
      (commitCounts (c1.store g desc (κ.totalField.put c.super n)) g now) := by
  have hcnt : c1.groupsCount = c.groupsCount := congrArg Layout.groupsCount ht.layout
  have hbs : c1.blockSize = c.blockSize := congrArg Layout.blockSize ht.layout
  rw [commitCounts_store (ht.layout ▸ hs.laid) (hcnt ▸ hg)]
  refine ⟨?_, fun h => ?_, fun f hf => get_put_of_apart hf, fun hst => ?_, ?_⟩
  · rw [settle_layout (ht.groups ▸ hd) (ht.super ▸ κ.blocksCount_put ..)
      (ht.super ▸ κ.inodesCount_put ..), ht.layout]
  · show (if h = g then desc else c1.groups h) = _
    rw [ht.groups]
  · refine settle_stored (ht.layout ▸ hs.laid) (ht.stored hst ?_)
    exact hs.separate.bitmap_clear hg
  intro κ' h hh j hj
  rw [settle_bit (hcnt ▸ hg) (hbs ▸ hj) (by
    rw [ht.layout, hbs]
    exact hs.separate.bitmap_clear hh)]
  by_cases heq : c.layout.bitmap κ' h = c.layout.bitmap κ g
  · obtain ⟨rfl, rfl⟩ := hs.separate.bitmap_inj hh hg heq
    rw [hbit j]
    simp
  · rw [if_neg fun hc => heq (by rw [hc.1, hc.2.1])]
    exact ht.bit hj (apart_of_ne heq)

/-- What is written into an inode table changes nothing of this. -/
theorem touch (hr : Rebooks c κ g k v desc sup c') (hs : c.layout.Sound) (hh : h < c.groupsCount)
    (ht : c'.Touches (c.blockSize * c.layout.inodeTable h) (c.inodesPerGroup * c.inodeSize) c'') :
    Rebooks c κ g k v desc sup c'' := by
  have hbs : c'.blockSize = c.blockSize := congrArg Layout.blockSize hr.layout
  refine ⟨ht.layout.trans hr.layout, fun h => ?_, fun f hf => ?_, fun hst => ?_, ?_⟩
  · rw [ht.groups, hr.groups]
  · rw [ht.super, hr.super f hf]
  · refine ht.stored (hr.stored hst) ?_
    rw [hr.layout]
    exact hs.separate.tables_clear h hh
  · intro κ' g' hg' j hj
    rw [← hr.bits κ' g' hg' j hj]
    refine ht.bit (hbs ▸ hj) ?_
    rw [hbs]
    exact hs.separate.bitmap_table hg' hh

/-! ## The pools after it -/

theorem pool_used (hr : Rebooks c κ g k v desc sup c') (hs : c.layout.Sound)
    (hh : h < c.groupsCount) (hj : j < c.layout.units κ' h) :
    (c'.pool κ').used h j =
      if κ' = κ ∧ h = g ∧ j = k then v else (c.pool κ').used h j := by
  rw [Context.pool_used, hr.layout]
  exact hr.bits κ' h hh j (Nat.lt_of_lt_of_le hj hs.laid.units_le)

theorem get_desc {f : Field} (hr : Rebooks c κ g k v desc sup c') :
    f.get (c'.groups h) = if h = g then f.get desc else f.get (c.groups h) := by
  rw [hr.groups]
  split <;> rfl

theorem pool_free (hr : Rebooks c κ g k v desc sup c') :
    (c'.pool κ').free h = if h = g then κ'.freeField.get desc else (c.pool κ').free h := hr.get_desc

theorem pool_total (hr : Rebooks c κ g k v desc sup c') :
    (c'.pool κ').total = κ'.totalField.get sup := by
  rw [Context.pool_total, hr.super _ (by cases κ' <;> decide)]

theorem pool_same (hr : Rebooks c κ g k v desc (κ.totalField.put c.super n) c')
    (hs : c.layout.Sound) (hne : κ' ≠ κ)
    (hdesc : κ'.freeField.get desc = κ'.freeField.get (c.groups g)) :
    Pool.Same c.groupsCount (c.layout.units κ') (c.pool κ') (c'.pool κ') where
  used h hh j hj := by rw [hr.pool_used hs hh hj, if_neg fun hc => hne hc.1]
  free h _ := by
    rw [hr.pool_free]
    split
    case isTrue heq => rw [heq, hdesc, Context.pool_free]
    case isFalse => rfl
  total := by
    rw [hr.pool_total, get_put_of_apart (totalField_apart hne), Context.pool_total]

end Rebooks

/-- Unit `k` of group `g` was taken. -/
structure Took (c : Context) (κ : Kind) (g k : Nat) (c' : Context) : Prop where
  layout : c'.layout = c.layout
  stored : c.Stored → c'.Stored
  takes : Pool.Takes c.groupsCount (c.layout.units κ) (c.pool κ) g k (c'.pool κ)
  others : ∀ κ', κ' ≠ κ →
    Pool.Same c.groupsCount (c.layout.units κ') (c.pool κ') (c'.pool κ')

/-- Unit `k` of group `g` was put back. -/
structure Gave (c : Context) (κ : Kind) (g k : Nat) (c' : Context) : Prop where
  layout : c'.layout = c.layout
  stored : c.Stored → c'.Stored
  puts : Pool.Takes c.groupsCount (c.layout.units κ) (c'.pool κ) g k (c.pool κ)
  others : ∀ κ', κ' ≠ κ →
    Pool.Same c.groupsCount (c.layout.units κ') (c.pool κ') (c'.pool κ')

theorem field_put_pred {f : Field} (hpos : 0 < f.get b) :
    f.get b = f.get (f.put b (f.get b - 1)) + 1 := by
  have hlt : f.get b < 256 ^ f.width := le_lt
  rw [get_put, Nat.mod_eq_of_lt (by omega)]
  omega

theorem field_put_succ {f : Field} (hlt : f.get b < n) (hn : n < 256 ^ f.width) :
    f.get (f.put b (f.get b + 1)) = f.get b + 1 := by
  rw [get_put, Nat.mod_eq_of_lt (Nat.lt_of_le_of_lt hlt hn)]

section
variable (hs : c.layout.Sound) (hg : g < c.groupsCount) (hk : k < c.layout.units κ g)
include hs hg hk

theorem Rebooks.mark (hd : Context.SamePlaces (c.groups g) desc) :
    Rebooks c κ g k true desc (κ.totalField.put c.super n) (commitCounts
      ((c.mark (c.layout.bitmap κ g) k).store g desc (κ.totalField.put c.super n)) g now) := by
  have ht : c.Touches (c.blockSize * c.layout.bitmap κ g) c.blockSize
      (c.mark (c.layout.bitmap κ g) k) :=
    mark_touches (Nat.lt_of_lt_of_le hk hs.laid.units_le)
  refine .of_touches hs hg ht (fun j => ?_) hd
  rw [bit_mark]
  by_cases hj : j = k <;> simp [hj]

theorem Rebooks.unmark (hd : Context.SamePlaces (c.groups g) desc) :
    Rebooks c κ g k false desc (κ.totalField.put c.super n) (commitCounts
      ((c.unmark (c.layout.bitmap κ g) k).store g desc (κ.totalField.put c.super n)) g now) := by
  have ht : c.Touches (c.blockSize * c.layout.bitmap κ g) c.blockSize
      (c.unmark (c.layout.bitmap κ g) k) :=
    unmark_touches (Nat.lt_of_lt_of_le hk hs.laid.units_le)
  refine .of_touches hs hg ht (fun j => ?_) hd
  rw [bit_unmark]
  by_cases hj : j = k <;> simp [hj]

variable (hoth : ∀ κ', κ' ≠ κ → κ'.freeField.get desc = κ'.freeField.get (c.groups g))
include hoth

theorem Rebooks.took (hr : Rebooks c κ g k true desc (κ.totalField.put c.super n) c')
    (hclr : (c.pool κ).used g k = false)
    (hdesc : κ.freeField.get (c.groups g) = κ.freeField.get desc + 1)
    (hsup : κ.totalField.get c.super = κ.totalField.get (κ.totalField.put c.super n) + 1) :
    Took c κ g k c' := by
  refine ⟨hr.layout, hr.stored, ⟨hg, hk, hclr, fun h hh j hj => ?_, fun h _ => ?_, ?_⟩,
    fun κ' hne => hr.pool_same hs hne (hoth κ' hne)⟩
  · rw [hr.pool_used hs hh hj]
    by_cases heq : h = g ∧ j = k <;> simp [heq]
  · rw [hr.pool_free]
    split
    case isTrue heq => rw [heq, Context.pool_free, hdesc]
    case isFalse => rfl
  · rw [hr.pool_total, ← hsup, Context.pool_total]

theorem Rebooks.gave (hr : Rebooks c κ g k false desc (κ.totalField.put c.super n) c')
    (hset : (c.pool κ).used g k = true)
    (hdesc : κ.freeField.get desc = κ.freeField.get (c.groups g) + 1)
    (hsup : κ.totalField.get (κ.totalField.put c.super n) = κ.totalField.get c.super + 1) :
    Gave c κ g k c' := by
  refine ⟨hr.layout, hr.stored, ⟨hg, hk, ?_, fun h hh j hj => ?_, fun h _ => ?_, ?_⟩,
    fun κ' hne => hr.pool_same hs hne (hoth κ' hne)⟩
  · rw [hr.pool_used hs hg hk, if_pos ⟨rfl, rfl, rfl⟩]
  · rw [hr.pool_used hs hh hj]
    by_cases heq : h = g ∧ j = k <;> simp [heq, hset]
  · rw [hr.pool_free]
    split
    case isTrue heq => rw [heq, hdesc, Context.pool_free]
    case isFalse => rfl
  · rw [hr.pool_total, hsup, Context.pool_total]

end

theorem Rebooks.usedDirs_eq (hr : Rebooks c κ g k v desc sup c') :
    c'.usedDirs h = if h = g then usedDirsCount.get desc else c.usedDirs h := hr.get_desc

theorem Rebooks.usedDirs_put (hr : Rebooks c κ g k v (κ.freeField.put (c.groups g) n) sup c')
    (h : Nat) : c'.usedDirs h = c.usedDirs h := by
  rw [hr.usedDirs_eq]
  split
  case isTrue heq => rw [Kind.usedDirs_put, heq, usedDirs]
  case isFalse => rfl

/-! ## Blocks -/

theorem exists_turn (hsta : start < n) (hn : 2 * n ≤ 2 ^ 32) (hg : g < n) :
    ∃ i < n, u32 (start + i) % n = g := by
  by_cases hle : start ≤ g
  · refine ⟨g - start, by omega, ?_⟩
    rw [u32, Nat.mod_eq_of_lt (b := 2 ^ 32) (by omega), Nat.add_sub_cancel' hle,
      Nat.mod_eq_of_lt hg]
  · refine ⟨g + n - start, by omega, ?_⟩
    have hsum : start + (g + n - start) = g + n := by omega
    rw [u32, hsum, Nat.mod_eq_of_lt (b := 2 ^ 32) (by omega), Nat.add_mod_right,
      Nat.mod_eq_of_lt hg]

theorem firstGroup_some (hn : 0 < c.groupsCount) (h : firstGroup c start attempt = some r) :
    ∃ i, u32 (start + i) % c.groupsCount < c.groupsCount ∧
      attempt i (u32 (start + i) % c.groupsCount) = some r := by
  obtain ⟨i, -, hi⟩ := List.exists_of_findSome?_eq_some h
  exact ⟨i, Nat.mod_lt _ hn, hi⟩

section
variable (hs : c.layout.Sound)
include hs

theorem start_lt (goal : Nat) : startGroup c goal < c.groupsCount ∧
    startBit c goal < c.layout.limit (startGroup c goal) := by
  have hlt : c.firstDataBlock < c.blocksCount := hs.laid.firstDataBlock_lt
  refine hs.laid.group_of_block hs.root ?_
  show clampGoal c goal - c.firstDataBlock < c.blocksCount - c.firstDataBlock
  rw [clampGoal]
  split <;> omega

theorem groupsCount_small : 2 * c.groupsCount ≤ 2 ^ 32 :=
  Nat.le_trans (hs.separate.groupsCount_le hs.laid) (Nat.le_of_lt hs.laid.blocksCount_lt)

/-- Where the search starts in the group of turn `i`. -/
theorem start_le (goal i : Nat)
    (hg : u32 (startGroup c goal + i) % c.groupsCount < c.groupsCount) :
    (if i = 0 then startBit c goal else 0) ≤
      groupBlocks c (u32 (startGroup c goal + i) % c.groupsCount) := by
  split
  case isFalse => exact Nat.zero_le _
  rename_i hi
  obtain ⟨hgrp, hbit⟩ := start_lt hs goal
  have hsmall := groupsCount_small hs
  have htn : u32 (startGroup c goal + i) % c.groupsCount = startGroup c goal := by
    rw [hi, Nat.add_zero, u32, Nat.mod_eq_of_lt (b := 2 ^ 32) (by omega), Nat.mod_eq_of_lt hgrp]
  rw [groupBlocks_eq hs.laid.toGeometry hs.root hg, htn]
  exact Nat.le_of_lt hbit

theorem Layout.Sound.block_number (hk : k < c.layout.limit g) :
    u32 (c.firstDataBlock + g * c.blocksPerGroup + k) =
      c.firstDataBlock + g * c.blocksPerGroup + k :=
  Nat.mod_eq_of_lt (Nat.lt_trans (hs.laid.block_lt hk) hs.laid.blocksCount_lt)

theorem bookBlock_rebooks (now : Nat) (hg : g < c.groupsCount) (hk : k < c.layout.limit g) :
    Rebooks c .block g k true
      (block.freeField.put (c.groups g) (block.freeField.get (c.groups g) - 1))
      (block.totalField.put c.super (block.totalField.get c.super - 1))
      (bookBlock (c.mark (c.layout.bitmap .block g) k) g k now).2 :=
  .mark hs hg hk (samePlaces_put _ _ _)

theorem blockFrom_some {start : Nat} (hg : g < c.groupsCount) (hsta : start ≤ groupBlocks c g)
    (htot : 0 < (c.pool .block).total) (h : blockFrom c now start g = some (r, c')) :
    ∃ k < c.layout.limit g, r = c.firstDataBlock + g * c.blocksPerGroup + k ∧
      Took c .block g k c' ∧ ∀ h, c'.usedDirs h = c.usedDirs h := by
  rw [blockFrom] at h
  obtain ⟨hfree, h⟩ := Option.ite_none_left_eq_some.mp h
  split at h
  · cases h
  rename_i k c1 htk
  obtain ⟨-, hk, hclr, rfl⟩ := bitmapTake_ok htk (Nat.zero_le _) (.inl hsta)
  rw [groupBlocks_eq hs.laid.toGeometry hs.root hg] at hk
  cases h
  have hr := bookBlock_rebooks hs now hg hk
  refine ⟨k, hk, hs.block_number hk, ?_, hr.usedDirs_put⟩
  exact hr.took hs hg hk (fun κ' hne => get_put_of_apart (freeField_apart hne))
    hclr (field_put_pred (Nat.pos_of_ne_zero hfree)) (field_put_pred htot)

theorem returnBlock_rebooks (now : Nat) (hg : g < c.groupsCount) (hk : k < c.layout.limit g) :
    Rebooks c .block g k false
      (block.freeField.put (c.groups g) (block.freeField.get (c.groups g) + 1))
      (block.totalField.put c.super (block.totalField.get c.super + 1))
      (returnBlock (c.unmark (c.layout.bitmap .block g) k) g now) :=
  .unmark hs hg hk (samePlaces_put _ _ _)

variable (hbal : (c.pool .block).Balanced c.groupsCount (c.layout.units .block))
include hbal

theorem blockFrom_none (hg : g < c.groupsCount)
    (hsta : start ≤ groupBlocks c g) (h : blockFrom c now start g = none) :
    (c.pool .block).free g = 0 := by
  rw [blockFrom] at h
  split at h
  case isTrue h0 => exact h0
  split at h
  case h_2 => cases h
  rename_i e htk
  by_contra hfree
  obtain ⟨k, hk, hclr⟩ := (hbal.free_pos hg).mp (Nat.pos_of_ne_zero hfree)
  have heq := groupBlocks_eq hs.laid.toGeometry hs.root hg
  have hle : c.layout.limit g ≤ c.blockSize * 8 := hs.laid.units_le (κ := .block)
  have hdev : c.blockSize * c.layout.bitmap .block g + c.blockSize ≤ c.volume.size :=
    hs.laid.bitmap_le hg
  have hset : c.bit (c.layout.bitmap .block g) k = true :=
    bitmapTake_error htk (by
      show c.blockSize * c.layout.bitmap .block g + (groupBlocks c g + 7) / 8 ≤ c.volume.size
      omega) (Nat.zero_le _) hsta (Nat.zero_le _) (heq ▸ hk)
  rw [Context.pool_used, hset] at hclr
  exact absurd hclr (by decide)

/-- `ext2_block_alloc` takes a block, or there is none. -/
theorem blockAlloc_spec (h : blockAlloc c goal now = (r, c')) :
    (r = 0 ∧ c' = c ∧ (c.pool .block).total = 0) ∨
    ∃ g k, k < c.layout.limit g ∧ r = c.firstDataBlock + g * c.blocksPerGroup + k ∧
      Took c .block g k c' ∧ ∀ h, c'.usedDirs h = c.usedDirs h := by
  have hpos : 0 < c.groupsCount := hs.laid.groupsCount_pos hs.root
  rw [blockAlloc] at h
  split at h
  case isTrue h0 =>
    cases h
    exact .inl ⟨rfl, rfl, h0⟩
  rename_i htot
  right
  cases hfst : firstGroup c (startGroup c goal) fun i group =>
    blockFrom c now (if i = 0 then startBit c goal else 0) group with
  | none =>
    -- Every group was tried in vain, so none has a free block.
    refine absurd ?_ htot
    refine hbal.total.trans (Finset.sum_eq_zero fun g hg => ?_)
    have hg := Finset.mem_range.mp hg
    obtain ⟨i, hi, rfl⟩ := exists_turn (start_lt hs goal).1 (groupsCount_small hs) hg
    have hnone := List.findSome?_eq_none_iff.mp hfst i (List.mem_range.mpr hi)
    exact blockFrom_none hs hbal hg (start_le hs goal i hg) hnone
  | some p =>
    rw [hfst] at h
    cases h
    obtain ⟨i, hg, hsm⟩ := firstGroup_some hpos hfst
    obtain ⟨k, hk, hr, htk, hds⟩ := blockFrom_some hs hg (start_le hs goal i hg)
      (Nat.pos_of_ne_zero htot) hsm
    exact ⟨_, k, hk, hr, htk, hds⟩

theorem putBlock_spec (now : Nat)
    (hfit : c.layout.limit g < 2 ^ 16) (hg : g < c.groupsCount) (hk : k < c.layout.limit g) :
    putBlock c g k now = c ∨
    Gave c .block g k (putBlock c g k now) ∧
      ∀ h, (putBlock c g k now).usedDirs h = c.usedDirs h := by
  rw [putBlock]
  split
  case h_1 => exact .inl rfl
  rename_i c1 hput
  obtain ⟨hset, rfl⟩ := bitmapPut_ok hput
  obtain ⟨hfree, htot⟩ := hbal.count_lt hg hk hset
  have hsum := hs.sum_units_lt .block
  have hr := returnBlock_rebooks hs now hg hk
  refine .inr ⟨?_, hr.usedDirs_put⟩
  exact hr.gave hs hg hk (fun κ' hne => get_put_of_apart (freeField_apart hne))
    hset (field_put_succ hfree hfit) (field_put_succ htot hsum)

/-- `ext2_block_free` puts the block back, or leaves everything. -/
theorem blockFree_spec (b now : Nat)
    (hfit : ∀ g < c.groupsCount, c.layout.limit g < 2 ^ 16) :
    blockFree c b now = c ∨
    ∃ g k, b = c.firstDataBlock + g * c.blocksPerGroup + k ∧ Gave c .block g k (blockFree c b now) ∧
      ∀ h, (blockFree c b now).usedDirs h = c.usedDirs h := by
  rw [blockFree]
  split
  case isTrue => exact .inl rfl
  rename_i hin
  obtain ⟨hg, hk⟩ := hs.laid.group_of_block hs.root
    (b := b - c.firstDataBlock) (by show _ < c.blocksCount - c.firstDataBlock; omega)
  have hnum : (b - c.firstDataBlock) / c.layout.blocksPerGroup * c.blocksPerGroup +
      (b - c.firstDataBlock) % c.layout.blocksPerGroup = b - c.firstDataBlock :=
    Nat.div_add_mod' _ _
  rcases putBlock_spec hs hbal now (hfit _ hg) hg hk with hsame | hgave
  · exact .inl hsame
  · exact .inr ⟨_, _, by omega, hgave⟩

end

/-! ## Inodes -/

/-- A descriptor with `n` free inodes and, for the inode of a directory, `a` more directories. -/
def descCounts (d : Bytes) (directory : Bool) (n a : Nat) : Bytes :=
  let d := freeInodesCount.put d n
  if directory then usedDirsCount.put d (usedDirsCount.get d + a) else d

section
variable {d : Bytes} {directory : Bool} {n a : Nat}

theorem descCounts_places : Context.SamePlaces d (descCounts d directory n a) := by
  cases directory
  · exact .put (by decide) _ _
  · exact (Context.SamePlaces.put (by decide) _ _).trans (.put (by decide) _ _)

theorem freeInodes_descCounts : freeInodesCount.get (descCounts d directory n a) =
    freeInodesCount.get (freeInodesCount.put d n) := by
  cases directory
  · rfl
  · exact get_put_of_apart (by decide)

theorem freeBlocks_descCounts :
    freeBlocksCount.get (descCounts d directory n a) = freeBlocksCount.get d := by
  cases directory
  · exact get_put_of_apart (by decide)
  · exact (get_put_of_apart (by decide)).trans (get_put_of_apart (by decide))

theorem putInode_of_clear (now : Nat) (directory : Bool) (hset : (c.pool .inode).used g k ≠ true) :
    putInode c g k now directory = c := by
  rw [putInode]
  split
  case h_1 => rfl
  case h_2 c1 hput => exact absurd (bitmapPut_ok hput).1 hset

/-- For the inode of a directory, `a` more directories are counted in group `g`. -/
def DirsCounted (c : Context) (g : Nat) (directory : Bool) (a : Nat) (c' : Context) : Prop :=
  ∀ h, c'.usedDirs h = if h = g ∧ directory then (c.usedDirs h + a) % 2 ^ 16 else c.usedDirs h

theorem Rebooks.usedDirs_counts
    (hr : Rebooks c κ g k v (descCounts (c.groups g) directory n a) sup c') :
    DirsCounted c g directory a c' := by
  intro h
  rw [hr.usedDirs_eq]
  by_cases heq : h = g
  · rw [if_pos heq, heq]
    cases directory with
    | false =>
      rw [if_neg (by simp)]
      exact get_put_of_apart (by decide)
    | true =>
      rw [if_pos ⟨rfl, rfl⟩]
      refine (get_put _ _ _).trans (congrArg (fun dirs => (dirs + a) % 2 ^ 16) ?_)
      exact get_put_of_apart (by decide)
  · rw [if_neg heq, if_neg fun hc => heq hc.1]

end

section
variable (hs : c.layout.Sound)
include hs

theorem Rebooks.clear (hr : Rebooks c κ g k v desc sup c') (hpos : 0 < ino)
    (hle : ino ≤ c.inodesCount) : Rebooks c κ g k v desc sup (inodeClear c' ino).1 := by
  have hcnt : c'.inodesCount = c.inodesCount := congrArg Layout.inodesCount hr.layout
  have hgrp : c'.groupsCount = c.groupsCount := congrArg Layout.groupsCount hr.layout
  obtain ⟨h, hh, ht⟩ := inodeClear_touches (hr.layout ▸ hs.laid) hpos (hcnt ▸ hle)
  have hplc : c'.Touches (c'.layout.blockSize * c'.layout.inodeTable h)
      (c'.layout.inodesPerGroup * c'.layout.inodeSize) (inodeClear c' ino).1 := ht
  rw [hr.layout] at hplc
  exact hr.touch hs (hgrp ▸ hh) hplc

variable (hg : g < c.groupsCount)
include hg

theorem Layout.Sound.inode_number (hk : k < c.inodesPerGroup) :
    g * c.inodesPerGroup + k + 1 ≤ c.inodesCount ∧
      u32 (g * c.inodesPerGroup + k + 1) = g * c.inodesPerGroup + k + 1 := by
  have hle : g * c.inodesPerGroup + k + 1 ≤ c.inodesCount :=
    calc g * c.inodesPerGroup + k + 1 ≤ g * c.inodesPerGroup + c.inodesPerGroup :=
          Nat.add_le_add_left hk _
      _ = (g + 1) * c.inodesPerGroup := (Nat.succ_mul _ _).symm
      _ ≤ c.groupsCount * c.inodesPerGroup := Nat.mul_le_mul_right _ hg
      _ = c.inodesCount := hs.laid.inodesCount_eq
  have hlt : c.inodesCount < 2 ^ 32 := hs.laid.inodesCount_lt
  exact ⟨hle, Nat.mod_eq_of_lt (Nat.lt_of_le_of_lt hle hlt)⟩

theorem bookInode_rebooks (now : Nat) (directory : Bool) (hk : k < c.inodesPerGroup) :
    Rebooks c .inode g k true (descTaken (c.groups g) directory)
      (inode.totalField.put c.super (inode.totalField.get c.super - 1))
      (bookInode (c.mark (c.layout.bitmap .inode g) k) g k now directory).2 := by
  obtain ⟨hle, hnum⟩ := hs.inode_number hg hk
  refine Rebooks.clear hs (.mark hs hg hk descCounts_places) ?_ ?_
  · exact Nat.lt_of_lt_of_eq (Nat.succ_pos _) hnum.symm
  · exact Nat.le_trans (Nat.le_of_eq hnum) hle

theorem returnInode_rebooks (now : Nat) (directory : Bool) (hk : k < c.inodesPerGroup) :
    Rebooks c .inode g k false (descGiven (c.groups g) directory)
      (inode.totalField.put c.super (inode.totalField.get c.super + 1))
      (returnInode (c.unmark (c.layout.bitmap .inode g) k) g now directory) :=
  .unmark hs hg hk descCounts_places

theorem inodeFrom_some {r : Nat} (htot : 0 < (c.pool .inode).total)
    (h : inodeFrom c now directory g = some (r, c')) :
    ∃ k < c.inodesPerGroup, firstBit c g ≤ k ∧ r = g * c.inodesPerGroup + k + 1 ∧
      Took c .inode g k c' ∧ DirsCounted c g directory 1 c' := by
  rw [inodeFrom] at h
  obtain ⟨hfree, h⟩ := Option.ite_none_left_eq_some.mp h
  split at h
  · cases h
  rename_i k c1 htk
  obtain ⟨hle, hk, hclr, rfl⟩ := bitmapTake_ok htk (Nat.le_refl _) (.inr rfl)
  cases h
  have hr := bookInode_rebooks hs hg now directory hk
  refine ⟨k, hk, hle, (hs.inode_number hg hk).2, ?_, hr.usedDirs_counts⟩
  refine hr.took hs hg hk (fun κ' hne => ?_) hclr ?_ (field_put_pred htot)
  · cases κ' with
    | inode => exact absurd rfl hne
    | block => exact freeBlocks_descCounts
  · refine (field_put_pred (Nat.pos_of_ne_zero hfree)).trans (congrArg (· + 1) ?_)
    exact freeInodes_descCounts.symm

omit hg in
/-- `ext2_inode_alloc` takes an inode and counts the directory, or leaves everything. -/
theorem inodeAlloc_spec (h : inodeAlloc c parent directory now = (r, c')) :
    (r = 0 ∧ c' = c) ∨
    ∃ g k, firstBit c g ≤ k ∧ r = g * c.inodesPerGroup + k + 1 ∧ Took c .inode g k c' ∧
      DirsCounted c g directory 1 c' := by
  have hpos : 0 < c.groupsCount := hs.laid.groupsCount_pos hs.root
  rw [inodeAlloc] at h
  split at h
  case isTrue =>
    cases h
    exact .inl ⟨rfl, rfl⟩
  rename_i htot
  cases hfst : firstGroup c (inodeStart c parent directory) fun _ group =>
    inodeFrom c now directory group with
  | none =>
    rw [hfst] at h
    cases h
    exact .inl ⟨rfl, rfl⟩
  | some p =>
    rw [hfst] at h
    cases h
    obtain ⟨i, hg, hsm⟩ := firstGroup_some hpos hfst
    obtain ⟨k, -, hspec⟩ := inodeFrom_some hs hg (Nat.pos_of_ne_zero htot) hsm
    exact .inr ⟨_, k, hspec⟩

variable (hbal : (c.pool .inode).Balanced c.groupsCount (c.layout.units .inode))
include hbal

theorem putInode_of_used (now : Nat) (directory : Bool) (hk : k < c.inodesPerGroup)
    (hset : (c.pool .inode).used g k = true) (hfit : (c.pool .inode).free g + 1 < 2 ^ 16) :
    Gave c .inode g k (putInode c g k now directory) ∧
      DirsCounted c g directory (2 ^ 16 - 1) (putInode c g k now directory) := by
  have htot := (hbal.count_lt hg hk hset).2
  have hsum := hs.sum_units_lt .inode
  have hdev : c.blockSize * c.layout.bitmap .inode g + c.blockSize ≤ c.volume.size :=
    hs.laid.bitmap_le hg
  have hper : c.inodesPerGroup ≤ c.blockSize * 8 := hs.laid.inodesPerGroup_le
  have hr := returnInode_rebooks hs hg now directory hk
  have hput : bitmapPut c (inodeBitmap.get (c.groups g)) k =
      .ok (c.unmark (c.layout.bitmap .inode g) k) :=
    bitmapPut_of_set (by show c.blockSize * c.layout.bitmap .inode g + k / 8 < _; omega) hset
  rw [putInode, hput]
  refine ⟨?_, hr.usedDirs_counts⟩
  refine hr.gave hs hg hk (fun κ' hne => ?_) hset ?_ (field_put_succ htot hsum)
  · cases κ' with
    | inode => exact absurd rfl hne
    | block => exact freeBlocks_descCounts
  · exact freeInodes_descCounts.trans (field_put_succ (Nat.lt_succ_self _) hfit)

omit hg in
/-- `ext2_inode_free` puts the inode back and uncounts the directory, or leaves everything. -/
theorem inodeFree_spec (ino now : Nat) (directory : Bool)
    (hfit : c.inodesPerGroup < 2 ^ 16) :
    inodeFree c ino directory now = c ∨
    ∃ g k, ino = g * c.inodesPerGroup + k + 1 ∧ Gave c .inode g k (inodeFree c ino directory now) ∧
      DirsCounted c g directory (2 ^ 16 - 1) (inodeFree c ino directory now) := by
  rw [inodeFree]
  split
  case isTrue => exact .inl rfl
  rename_i hin
  have hfst : 0 < c.firstIno := hs.laid.firstIno_pos
  obtain ⟨hg, hk⟩ := hs.laid.group_of_inode (i := ino - 1)
    (by show _ < c.inodesCount; omega)
  have hnum : (ino - 1) / c.layout.inodesPerGroup * c.inodesPerGroup +
      (ino - 1) % c.inodesPerGroup = ino - 1 := Nat.div_add_mod' _ _
  by_cases hset : (c.pool .inode).used ((ino - 1) / c.inodesPerGroup)
      ((ino - 1) % c.inodesPerGroup) = true
  · have hfree := (hbal.count_lt hg hk hset).1
    exact .inr ⟨_, _, by omega, putInode_of_used hs hg hbal now directory hk hset
      (Nat.lt_of_le_of_lt (Nat.succ_le_of_lt hfree) hfit)⟩
  · exact .inl (putInode_of_clear now directory hset)

end

end Vex.Fs.Ext2
