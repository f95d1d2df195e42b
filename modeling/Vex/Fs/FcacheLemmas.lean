import Vex.Fs.Fcache

/-! What the functions of the file cache do to its bookkeeping, whatever the rest of the kernel
answers: `Steady` holds of every one of them, errors included. The second part is the walk of
`writeback_locked`: it meets every dirty page, so a writeback without an error leaves none. -/

namespace Vex.Fs

open Lib Mm

attribute [local simp] Fcache.modify Table.get_modify

variable {node : Vnode} {c c' c'' : Fcache} {r : Except Errno Unit} {index size : Nat}

/-- The counter of dirty pages is right. -/
def Fcache.Counted (c : Fcache) : Prop := c.numDirty = c.tree.count (·.dirty)

/-- `c'` differs from `c` in the answers still to come only. -/
structure Asked (c c' : Fcache) : Prop where
  eq : c' = { c with luck := c'.luck }
  luck : c'.luck <:+ c.luck

/-- `c'` differs from `c` in the disk and the answers still to come only. -/
structure Stored (c c' : Fcache) : Prop where
  eq : c' = { c with disk := c'.disk, luck := c'.luck }
  luck : c'.luck <:+ c.luck

/-- What every call keeps: the counter stays right, the vnode is not taken off the dirty queue,
and it is on the queue if its first dirty page came up. -/
structure Steady (c c' : Fcache) : Prop where
  counted : c.Counted → c'.Counted
  queued : c.queued → c'.queued
  dirty : 0 < c'.numDirty → 0 < c.numDirty ∨ c'.queued
  luck : c'.luck <:+ c.luck

namespace Asked

theorem refl : Asked c c := ⟨rfl, List.suffix_rfl⟩

theorem spend : Asked c c.spend := ⟨rfl, List.tail_suffix _⟩

theorem trans (h : Asked c c') (h' : Asked c' c'') : Asked c c'' :=
  ⟨by rw [h'.eq, h.eq], h'.luck.trans h.luck⟩

theorem stored (h : Asked c c') : Stored c c' := ⟨by rw [h.eq], h.luck⟩

theorem tree (h : Asked c c') : c'.tree = c.tree := by rw [h.eq]

theorem disk (h : Asked c c') : c'.disk = c.disk := by rw [h.eq]

end Asked

namespace Stored

theorem trans (h : Stored c c') (h' : Stored c' c'') : Stored c c'' :=
  ⟨by rw [h'.eq, h.eq], h'.luck.trans h.luck⟩

theorem tree (h : Stored c c') : c'.tree = c.tree := by rw [h.eq]

theorem numDirty (h : Stored c c') : c'.numDirty = c.numDirty := by rw [h.eq]

theorem steady (h : Stored c c') : Steady c c' where
  counted hc := by rw [h.eq]; exact hc
  queued hq := by rw [h.eq]; exact hq
  dirty hd := .inl (h.numDirty ▸ hd)
  luck := h.luck

end Stored

namespace Steady

theorem refl : Steady c c := ⟨id, id, .inl, List.suffix_rfl⟩

theorem trans (h : Steady c c') (h' : Steady c' c'') : Steady c c'' where
  counted hc := h'.counted (h.counted hc)
  queued hq := h'.queued (h.queued hq)
  dirty hd := by
    rcases h'.dirty hd with hd | hq
    · exact (h.dirty hd).imp_right h'.queued
    · exact .inr hq
  luck := h'.luck.trans h.luck

/-- The tree may change as long as the number of its dirty pages does not. -/
theorem of_count (h : t.count (·.dirty) = c.tree.count (·.dirty)) :
    Steady c { c with tree := t } where
  counted hc := Eq.trans hc h.symm
  queued := id
  dirty := .inl
  luck := List.suffix_rfl

theorem modify (hf : ∀ pg, (f pg).dirty = pg.dirty) : Steady c (c.modify index f) :=
  of_count (Table.count_modify hf)

theorem erase (h : ∀ pg, c.tree.get index = some pg → pg.dirty = false) :
    Steady c { c with tree := c.tree.erase index } :=
  of_count (Table.count_erase h)

theorem put (h : c.tree.get index = none) (hpg : pg.dirty = false) :
    Steady c { c with tree := c.tree.put index pg } := by
  have hcnt := Table.count_put_of_none (a := pg) (p := (·.dirty)) h
  simp only [hpg] at hcnt
  exact of_count hcnt

/-- A step that is made only in some cases. -/
theorem of_ite [Decidable p] (hx : ∀ {r c'}, x = (r, c') → Steady c c')
    (h : (if p then x else (.ok (), c)) = (r, c')) : Steady c c' := by
  split at h
  · exact hx h
  · cases h; exact refl

end Steady

/-! ## Dirty pages -/

theorem steady_markDirty : Steady c (markDirty c index sectors) := by
  unfold markDirty
  split
  · exact .refl
  next pg hpg =>
  have hmod : Steady c (c.modify index fun pg =>
      { pg with sectors := pg.sectors ||| sectors.setWidth 8 }) := .modify fun _ => rfl
  split
  · exact hmod
  next hcln =>
  refine hmod.trans ⟨fun hc => ?_, fun _ => rfl, fun _ => .inr rfl, List.suffix_rfl⟩
  -- the page goes from clean to dirty, and the counter with it
  have hget : (c.modify index fun pg =>
      { pg with sectors := pg.sectors ||| sectors.setWidth 8 }).tree.get index =
      some { pg with sectors := pg.sectors ||| sectors.setWidth 8 } := by
    simp [hpg]
  have hcnt := Table.count_modify_of_get (p := (·.dirty))
    (f := fun pg : CachePage => { pg with dirty := true }) hget
  simp only [hcln, Bool.toNat_false] at hcnt
  exact (congrArg (· + 1) hc).trans hcnt.symm

theorem steady_markClean : Steady c (markClean c index) := by
  unfold markClean
  split
  · exact .refl
  next pg hpg =>
  split
  · next hdir =>
    refine ⟨fun hc => ?_, id, fun hd => .inl (Nat.lt_of_lt_of_le hd (Nat.sub_le _ _)),
      List.suffix_rfl⟩
    have hcnt := Table.count_modify_of_get (p := (·.dirty))
      (f := fun pg : CachePage => { pg with dirty := false, sectors := 0 }) hpg
    simp only [hdir] at hcnt
    exact Nat.sub_eq_of_eq_add (hc.trans hcnt.symm)
  · exact .refl

theorem get_markClean (index' : Nat) :
    (markClean c index).tree.get index' =
      if index = index' then
        (c.tree.get index).map fun pg =>
          if pg.dirty then { pg with dirty := false, sectors := 0 } else pg
      else c.tree.get index' := by
  unfold markClean
  split
  · next h =>
    split
    · next heq => simp [← heq, h]
    · rfl
  next pg h =>
  split
  · next hd => simp [h, hd]
  next hd =>
  split
  · next heq => simp [← heq, h, hd]
  · rfl

theorem get_markDirty (index' : Nat) :
    (markDirty c index sectors).tree.get index' =
      if index = index' then
        (c.tree.get index).map fun pg =>
          { pg with sectors := pg.sectors ||| sectors.setWidth 8, dirty := true }
      else c.tree.get index' := by
  unfold markDirty
  split
  · next h =>
    split
    · next heq => simp [← heq, h]
    · rfl
  next pg h =>
  split
  · next hd => simp [h, hd]
  by_cases hi : index = index'
  · subst hi
    simp [h]
  · simp [hi]

@[simp] theorem disk_markDirty : (markDirty c index sectors).disk = c.disk := by
  unfold markDirty
  split
  · rfl
  · dsimp only
    split <;> rfl

theorem markClean_of_clean (h : ∀ pg, c.tree.get index = some pg → pg.dirty = false) :
    markClean c index = c := by
  unfold markClean
  split
  · rfl
  · next pg hpg => simp [h pg hpg]

theorem dirty_markClean (h : (markClean c index).tree.get index = some pg) : pg.dirty = false := by
  rw [get_markClean, if_pos rfl] at h
  obtain ⟨pg', -, rfl⟩ := Option.map_eq_some_iff.mp h
  split
  · rfl
  · next hd => simpa using hd

@[simp] theorem disk_markClean : (markClean c index).disk = c.disk := by
  unfold markClean
  split
  · rfl
  · split <;> rfl

theorem steady_removePage : Steady c (removePage c index) :=
  steady_markClean.trans (.erase fun _ => dirty_markClean)

theorem get_removePage (index' : Nat) :
    (removePage c index).tree.get index' = if index = index' then none else c.tree.get index' := by
  simp only [removePage, Table.get_erase, get_markClean]
  split <;> rfl

@[simp] theorem disk_removePage : (removePage c index).disk = c.disk := disk_markClean

/-! ## Pages coming and going -/

theorem steady_reclaimVisit : Steady c (reclaimVisit c index) := by
  unfold reclaimVisit
  split
  · exact .refl
  next pg hpg =>
  split
  · exact .modify fun _ => rfl
  split
  · exact .refl
  next hcln =>
  refine .erase fun pg' h => ?_
  cases hpg.symm.trans h
  simp only [Bool.or_eq_true, not_or, Bool.not_eq_true] at hcln
  exact hcln.1

theorem steady_fcacheReclaim : Steady c (fcacheReclaim c visits) :=
  visits.foldlRecOn _ .refl fun _ h _ _ => h.trans steady_reclaimVisit

theorem steady_getPage (h : getPage c index = (b, c')) : Steady c c' := by
  unfold getPage at h
  have hrcl : Steady c (fcacheReclaim c c.chance.visits).spend :=
    steady_fcacheReclaim.trans Asked.spend.stored.steady
  split at h
  · cases h; exact .refl
  dsimp only at h
  split at h
  · cases h; exact hrcl
  split at h
  · cases h; exact hrcl
  next hnone =>
  cases h
  exact hrcl.trans (.put (by simpa using hnone) rfl)

/-! ## Sectors -/

theorem asked_askBmap (h : askBmap node c sector create = (x, c')) : Asked c c' := by
  unfold askBmap at h
  split at h <;> (cases h; exact .spend)

variable {data : Nat → UInt8}

theorem asked_blockRead (h : blockRead node c lba count pos data = (x, c')) : Asked c c' := by
  unfold blockRead at h
  split at h <;> (cases h; exact .spend)

theorem stored_blockWrite (h : blockWrite node c lba count pos data = (r, c')) : Stored c c' := by
  unfold blockWrite at h
  split at h <;> (cases h; exact ⟨rfl, List.tail_suffix _⟩)

theorem asked_fillLoop (h : fillLoop node first num fuel i data c = (x, c')) : Asked c c' := by
  induction fuel generalizing i data c with
  | zero => cases h; exact .refl
  | succ fuel ih =>
    unfold fillLoop at h
    split at h
    · cases h; exact .refl
    split at h
    · next hbm => cases h; exact asked_askBmap hbm
    next hbm =>
    have hask := asked_askBmap hbm
    split at h
    · cases h; exact hask
    dsimp only at h
    split at h
    · split at h
      · next hrd => cases h; exact hask.trans (asked_blockRead hrd)
      · next hrd => exact (hask.trans (asked_blockRead hrd)).trans (ih h)
    · exact hask.trans (ih h)

theorem steady_fillPage (h : fillPage node c index size = (r, c')) : Steady c c' := by
  unfold fillPage at h
  dsimp only at h
  split at h
  · next hfl => cases h; exact (asked_fillLoop hfl).stored.steady
  next hfl =>
  cases h
  exact (asked_fillLoop hfl).stored.steady.trans (.modify fun _ => rfl)

theorem asked_allocateLoop (h : allocateLoop node last fuel sector c = (r, c')) : Asked c c' := by
  induction fuel generalizing sector c with
  | zero => cases h; exact .refl
  | succ fuel ih =>
    unfold allocateLoop at h
    split at h
    · cases h; exact .refl
    split at h
    · next hbm => cases h; exact asked_askBmap hbm
    next hbm =>
    split at h
    · cases h; exact asked_askBmap hbm
    · exact (asked_askBmap hbm).trans (ih h)

theorem asked_allocateSpan (h : allocateSpan node c pos length = (r, c')) :
    Asked c c' := asked_allocateLoop h

theorem stored_writeRun (h : writeRun node data fuel sector count pos c = (r, c')) :
    Stored c c' := by
  induction fuel generalizing sector count pos c with
  | zero => cases h; exact Asked.refl.stored
  | succ fuel ih =>
    unfold writeRun at h
    split at h
    · cases h; exact Asked.refl.stored
    split at h
    · next hbm => cases h; exact (asked_askBmap hbm).stored
    next hbm =>
    have hask := (asked_askBmap hbm).stored
    split at h
    · cases h; exact hask
    dsimp only at h
    split at h
    · split at h
      · next hwr => cases h; exact hask.trans (stored_blockWrite hwr)
      · next hwr => exact (hask.trans (stored_blockWrite hwr)).trans (ih h)
    · exact hask.trans (ih h)

theorem stored_writePageLoop (h : writePageLoop node data dirty first num fuel i c = (r, c')) :
    Stored c c' := by
  induction fuel generalizing i c with
  | zero => cases h; exact Asked.refl.stored
  | succ fuel ih =>
    unfold writePageLoop at h
    split at h
    · cases h; exact Asked.refl.stored
    split at h
    · exact ih h
    dsimp only at h
    split at h
    · next hrun => cases h; exact stored_writeRun hrun
    · next hrun => exact (stored_writeRun hrun).trans (ih h)

theorem stored_writePage (h : writePage node c pg index size = (r, c')) :
    Stored c c' := stored_writePageLoop h

/-! ## The walk of writeback_locked -/

variable {x : Except Errno Unit × Fcache}

theorem steady_writebackPage :
    Steady x.2 (writebackPage node size x index).2 := by
  unfold writebackPage
  split
  · exact .refl
  split
  · exact .refl
  split
  · next hwr => exact (stored_writePage hwr).steady
  · next hwr => exact (stored_writePage hwr).steady.trans steady_markClean

variable {batch : List Nat}

theorem steady_writebackBatch :
    Steady x.2 (batch.foldl (writebackPage node size) x).2 := by
  induction batch generalizing x with
  | nil => exact .refl
  | cons i batch ih => exact steady_writebackPage.trans ih

variable {fuel start : Nat}

theorem steady_writebackLoop :
    Steady x.2 (writebackLoop node size fuel start x).2 := by
  induction fuel generalizing start x with
  | zero => exact .refl
  | succ fuel ih =>
    unfold writebackLoop
    split
    · exact .refl
    dsimp only
    split
    · exact .refl
    · exact steady_writebackBatch.trans ih

theorem steady_writebackLocked : Steady c (writebackLocked node c size).2 :=
  steady_writebackLoop (x := (.ok (), c))

/-- The page under an index, if there is one, is clean. -/
def Fcache.Clean (c : Fcache) (index : Nat) : Prop :=
  ∀ pg, c.tree.get index = some pg → pg.dirty = false

/-- What a writeback does to the tree: some pages become clean. -/
structure Cleans (c c' : Fcache) : Prop where
  keys : c'.tree.keys = c.tree.keys
  page : ∀ i, c'.tree.get i = c.tree.get i ∨
    ∃ pg, c.tree.get i = some pg ∧ c'.tree.get i = some { pg with dirty := false, sectors := 0 }

namespace Cleans

theorem refl : Cleans c c := ⟨rfl, fun _ => .inl rfl⟩

theorem trans (h : Cleans c c') (h' : Cleans c' c'') : Cleans c c'' := by
  refine ⟨h'.keys.trans h.keys, fun i => ?_⟩
  rcases h.page i with h1 | ⟨pg, h1, h2⟩ <;> rcases h'.page i with h3 | ⟨pg', h3, h4⟩
  · exact .inl (h3.trans h1)
  · exact .inr ⟨pg', h1.symm.trans h3, h4⟩
  · exact .inr ⟨pg, h1, h3.trans h2⟩
  · cases h2.symm.trans h3
    exact .inr ⟨pg, h1, h4⟩

theorem of_tree (h : c'.tree = c.tree) : Cleans c c' := ⟨by rw [h], fun _ => .inl (by rw [h])⟩

theorem clean (h : Cleans c c') (hi : c.Clean i) : c'.Clean i := by
  intro pg hpg
  rcases h.page i with h1 | ⟨pg', -, h2⟩
  · exact hi pg (h1.symm.trans hpg)
  · cases h2.symm.trans hpg
    rfl

end Cleans

theorem cleans_markClean : Cleans c (markClean c index) := by
  unfold markClean
  split
  · exact .refl
  next pg hpg =>
  split
  · refine ⟨Table.keys_modify, fun i => ?_⟩
    by_cases hi : index = i
    · subst hi
      exact .inr ⟨pg, hpg, by simp [hpg]⟩
    · exact .inl (Table.get_modify_ne hi)
  · exact .refl

theorem cleans_writebackPage :
    Cleans x.2 (writebackPage node size x index).2 := by
  unfold writebackPage
  split
  · exact .refl
  split
  · exact .refl
  split
  · next hwr => exact .of_tree (stored_writePage hwr).tree
  · next hwr => exact (Cleans.of_tree (stored_writePage hwr).tree).trans cleans_markClean

theorem cleans_writebackBatch :
    Cleans x.2 (batch.foldl (writebackPage node size) x).2 := by
  induction batch generalizing x with
  | nil => exact .refl
  | cons i batch ih => exact cleans_writebackPage.trans ih

theorem writebackPage_ok (h : (writebackPage node size x index).1 = .ok ()) :
    x.1 = .ok () ∧ (writebackPage node size x index).2.Clean index := by
  unfold writebackPage at h ⊢
  split
  · next hnone => simp_all [Fcache.Clean]
  next pg hpg =>
  simp only [hpg] at h
  split
  · next hcln =>
    simp only [hcln] at h
    refine ⟨h, fun pg' hpg' => ?_⟩
    cases hpg.symm.trans hpg'
    simpa using hcln
  · next hdir =>
    simp only [hdir] at h
    split
    · next hwr =>
      simp only [hwr] at h
      cases hx : x.1 <;> simp [hx, Except.bind] at h
    · next hwr =>
      simp only [hwr] at h
      exact ⟨h, fun _ => dirty_markClean⟩

theorem writebackBatch_ok (h : (batch.foldl (writebackPage node size) x).1 = .ok ()) :
    x.1 = .ok () ∧ ∀ i ∈ batch, (batch.foldl (writebackPage node size) x).2.Clean i := by
  induction batch generalizing x with
  | nil => exact ⟨h, by simp⟩
  | cons j batch ih =>
    obtain ⟨hmid, hrs⟩ := ih h
    obtain ⟨hx, hj⟩ := writebackPage_ok hmid
    refine ⟨hx, fun i hi => ?_⟩
    rcases List.mem_cons.mp hi with rfl | hi
    · exact (cleans_writebackBatch (x := writebackPage node size x i)).clean hj
    · exact hrs i hi

/-- An error met earlier stays the result. -/
theorem writebackLoop_ok (h : (writebackLoop node size fuel start x).1 = .ok ()) :
    x.1 = .ok () := by
  induction fuel generalizing start x with
  | zero => exact h
  | succ fuel ih =>
    unfold writebackLoop at h
    split at h
    · exact h
    dsimp only at h
    split at h
    · exact h
    · exact (writebackBatch_ok (ih h)).1

theorem clean_of_numDirty_eq_zero (hc : c.Counted) (h : c.numDirty = 0) (i : Nat) : c.Clean i :=
  Table.count_eq_zero.mp (hc.symm.trans h) i

/-- The walk, from a start below which every page is clean: the fuel is enough for the keys
still before it, and at its end every page is clean. -/
theorem writebackLoop_clean (hcnt : x.2.Counted) (hfu : x.2.tree.above start < fuel)
    (hblw : ∀ i < start, x.2.Clean i)
    (h : (writebackLoop node size fuel start x).1 = .ok ()) (i : Nat) :
    (writebackLoop node size fuel start x).2.Clean i := by
  induction fuel generalizing start x with
  | zero => exact absurd hfu (Nat.not_lt_zero _)
  | succ fuel ih =>
    unfold writebackLoop at h ⊢
    split
    · next h0 => exact clean_of_numDirty_eq_zero hcnt h0 i
    next hpos =>
    simp only [hpos] at h
    dsimp only
    split
    · next hnil =>
      rw [List.getLast?_eq_none_iff, Table.gather_eq_nil (by decide)] at hnil
      exact fun pg hpg => hblw i (hnil i pg hpg) pg hpg
    next last hlast =>
    simp only [hlast] at h
    have hks : ((x.2.tree.gather start GATHER_BATCH).foldl
        (writebackPage node size) x).2.tree.keys = x.2.tree.keys := cleans_writebackBatch.keys
    refine ih (steady_writebackBatch.counted hcnt) ?_ ?_ h
    · have := Table.above_lt hlast
      simp only [Table.above, hks] at this hfu ⊢
      omega
    intro j hj
    by_cases hlt : j < start
    · exact cleans_writebackBatch.clean (hblw j hlt)
    intro pg hpg
    have hkey : j ∈ x.2.tree.keys := hks ▸ Table.mem_keys.mpr ⟨pg, hpg⟩
    have hmem := Table.mem_gather_of_le hlast hkey (by omega) (by omega)
    exact (writebackBatch_ok (writebackLoop_ok h)).2 j hmem pg hpg

theorem writebackLocked_clean (hcnt : c.Counted) (h : writebackLocked node c size = (.ok (), c'))
    : c'.numDirty = 0 := by
  have hcln := writebackLoop_clean (x := (.ok (), c)) hcnt
    (Nat.lt_succ_of_le Table.above_le) (fun i hi => absurd hi (Nat.not_lt_zero i))
    (congrArg Prod.fst h)
  have hcount' : (writebackLocked node c size).2.Counted := steady_writebackLocked.counted hcnt
  rw [h] at hcount'
  refine hcount'.trans (Table.count_eq_zero.mpr fun i pg hpg => hcln i pg ?_)
  rw [← hpg]
  exact congrArg (fun x => x.2.tree.get i) h

section

variable {P : Fcache → Prop}
  (hpa : ∀ c index, P c → ∃ c', writebackPage node size (.ok (), c) index = (.ok (), c') ∧ P c')
include hpa

theorem writebackBatch_rule (h : P c) (batch : List Nat) :
    ∃ c', batch.foldl (writebackPage node size) (.ok (), c) = (.ok (), c') ∧ P c' := by
  induction batch generalizing c with
  | nil => exact ⟨c, rfl, h⟩
  | cons i batch ih =>
    obtain ⟨c1, hst, h₁⟩ := hpa c i h
    rw [List.foldl_cons, hst]
    exact ih h₁

theorem writebackLoop_rule (h : P c) (fuel start : Nat) :
    ∃ c', writebackLoop node size fuel start (.ok (), c) = (.ok (), c') ∧ P c' := by
  induction fuel generalizing start c with
  | zero => exact ⟨c, rfl, h⟩
  | succ fuel ih =>
    unfold writebackLoop
    split
    · exact ⟨c, rfl, h⟩
    dsimp only
    split
    · exact ⟨c, rfl, h⟩
    obtain ⟨c1, hbatch, h₁⟩ :=
      writebackBatch_rule hpa h (c.tree.gather start GATHER_BATCH)
    rw [hbatch]
    exact ih h₁ _

/-- **Rule for writebacks.** If no page fails and each keeps `P`, the writeback succeeds and keeps
`P`. -/
theorem writebackLocked_rule (h : P c) :
    ∃ c', writebackLocked node c size = (.ok (), c') ∧ P c' :=
  writebackLoop_rule hpa h _ _

end

/-! ## The calls -/

theorem steady_throttle : Steady c (throttle node c size) := by
  unfold throttle
  split
  · exact Asked.spend.stored.steady.trans steady_writebackLocked
  · exact Asked.spend.stored.steady

theorem steady_fetchPage (h : fetchPage node c index size = (r, c')) : Steady c c' := by
  unfold fetchPage at h
  split at h
  · cases h; exact .refl
  split at h
  · next hfl => cases h; exact (steady_fillPage hfl).trans steady_removePage
  · next hfl => cases h; exact steady_fillPage hfl

theorem steady_readLoop (h : readLoop node offset count size fuel out c = (out', r, c')) :
    Steady c c' := by
  induction fuel generalizing out c with
  | zero => cases h; exact .refl
  | succ fuel ih =>
    unfold readLoop at h
    split at h
    · cases h; exact .refl
    dsimp only at h
    split at h
    · next hget => cases h; exact steady_getPage hget
    next hget =>
    split at h
    · next hfet => cases h; exact (steady_getPage hget).trans (steady_fetchPage hfet)
    next hfet =>
    have h1 := (steady_getPage hget).trans (steady_fetchPage hfet)
    refine (h1.trans ?_).trans (ih h)
    exact .modify fun _ => rfl

theorem steady_fcacheRead {x : Except Errno (List UInt8)}
    (h : fcacheRead node c count offset size = (x, c')) : Steady c c' := by
  unfold fcacheRead at h
  split at h
  · cases h; exact .refl
  split at h
  · cases h; exact .refl
  · cases h
    exact steady_readLoop rfl

theorem steady_getPageForWrite (h : getPageForWrite node c index size = (b, c')) : Steady c c' := by
  unfold getPageForWrite at h
  split at h
  · next hget => cases h; exact steady_getPage hget
  next hget =>
  split at h
  · exact (steady_getPage hget).trans (steady_writebackLocked.trans (steady_getPage h))
  · cases h; exact steady_getPage hget

theorem steady_storeChunk : Steady c (storeChunk node c pos chunk) := by
  refine Steady.trans ?_ steady_markDirty
  exact .modify fun _ => rfl

theorem steady_writeChunk (h : writeChunk node c pos size chunk = (r, c')) : Steady c c' := by
  unfold writeChunk at h
  dsimp only at h
  split at h
  · next hfet => cases h; exact .of_ite steady_fetchPage hfet
  next hfet =>
  have h1 := Steady.of_ite steady_fetchPage hfet
  split at h
  · next hal =>
    cases h
    refine (h1.trans (asked_allocateSpan hal).stored.steady).trans ?_
    split
    · exact .refl
    · exact steady_removePage
  · next hal =>
    cases h
    exact (h1.trans (asked_allocateSpan hal).stored.steady).trans steady_storeChunk

theorem steady_writeLoop (h : writeLoop node bytes offset fuel done size c = (done', size', r, c'))
    : Steady c c' := by
  induction fuel generalizing done size c with
  | zero => cases h; exact .refl
  | succ fuel ih =>
    unfold writeLoop at h
    split at h
    · cases h; exact .refl
    dsimp only at h
    split at h
    · next hget => cases h; exact steady_getPageForWrite hget
    next hget =>
    split at h
    · next hchk => cases h; exact (steady_getPageForWrite hget).trans (steady_writeChunk hchk)
    · next hchk =>
      exact ((steady_getPageForWrite hget).trans (steady_writeChunk hchk)).trans (ih h)

theorem steady_fcacheWrite {x : Except Errno Nat}
    (h : fcacheWrite node c bytes offset size = (x, c')) : Steady c c' := by
  unfold fcacheWrite at h
  split at h
  · cases h; exact .refl
  · cases h
    exact (steady_writeLoop rfl).trans steady_throttle

theorem steady_faultWrite (h : faultWrite node c index size = (r, c')) : Steady c c' := by
  unfold faultWrite at h
  dsimp only at h
  split at h
  · next hal => cases h; exact (asked_allocateSpan hal).stored.steady
  next hal =>
  cases h
  exact (asked_allocateSpan hal).stored.steady.trans steady_markDirty

theorem steady_faultMap (h : faultMap c index patched = (r, c')) : Steady c c' := by
  have hmod : Steady c (c.modify index fun pg => { pg with accessed := true }) :=
    .modify fun _ => rfl
  unfold faultMap at h
  dsimp only at h
  split at h
  · cases h; exact hmod
  split at h
  · cases h
    exact (hmod.trans Asked.spend.stored.steady).trans (.modify fun _ => rfl)
  · cases h
    exact hmod.trans Asked.spend.stored.steady

theorem steady_fcacheFault (h : fcacheFault node c offset size write patched = (r, c')) :
    Steady c c' := by
  unfold fcacheFault at h
  dsimp only at h
  iterate 3
    split at h
    · cases h; exact .refl
  have hthrottle : Steady c (if write then throttle node c size else c) := by
    split
    · exact steady_throttle
    · exact .refl
  split at h
  · next hget => cases h; exact hthrottle.trans (steady_getPage hget)
  next hget =>
  have h1 := hthrottle.trans (steady_getPage hget)
  split at h
  · next hfet => cases h; exact h1.trans (steady_fetchPage hfet)
  next hfet =>
  have h2 := h1.trans (steady_fetchPage hfet)
  split at h
  · next hwr => cases h; exact h2.trans (.of_ite steady_faultWrite hwr)
  · next hwr => exact (h2.trans (.of_ite steady_faultWrite hwr)).trans (steady_faultMap h)

theorem steady_removeBatch : Steady c (batch.foldl removePage c) :=
  batch.foldlRecOn _ .refl fun _ h _ _ => h.trans steady_removePage

theorem steady_truncateLoop : Steady c (truncateLoop keep fuel c) := by
  induction fuel generalizing c with
  | zero => exact .refl
  | succ fuel ih =>
    unfold truncateLoop
    split
    · exact .refl
    · exact steady_removeBatch.trans ih

theorem steady_fcacheTruncate : Steady c (fcacheTruncate c size) := by
  unfold fcacheTruncate
  dsimp only
  split
  · exact steady_truncateLoop
  · exact steady_truncateLoop.trans (.modify fun _ => rfl)

end Vex.Fs
