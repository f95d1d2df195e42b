import Vex.Fs.FcacheDisk

/-! The invariant between the cache, the disk and the contents of the file, and the parts of the
calls that leave the contents alone. A page that is up to date holds the file's bytes, zeroes past
its end included; a byte whose sector is not held dirty by the cache is on disk; and a hole reads
as zeroes. -/

namespace Vex.Fs

open Lib Mm Table Option Fcache

variable {node : Vnode} {m : Nat → Option Nat} {c c' : Fcache} {F : Nat → UInt8}
  {index size p : Nat}

/-! ## Positions -/

theorem sectorSize_pos (hv : sectorSizeValid node) : 0 < node.sectorSize := by
  simp only [sectorSizeValid, Bool.and_eq_true, decide_eq_true_eq] at hv
  exact Nat.pos_of_ne_zero hv.1.1

theorem perPage_mul (hv : sectorSizeValid node) :
    node.sectorSize * (PAGE_SIZE / node.sectorSize) = PAGE_SIZE := by
  simp only [sectorSizeValid, Bool.and_eq_true, decide_eq_true_eq] at hv
  exact Nat.mul_div_cancel' (Nat.dvd_of_mod_eq_zero hv.2)

theorem page_add (ho : o < PAGE_SIZE) : (index * PAGE_SIZE + o) / PAGE_SIZE = index := by
  rw [Nat.mul_comm, Nat.mul_add_div (by decide), Nat.div_eq_of_lt ho, Nat.add_zero]

theorem place_add (ho : o < PAGE_SIZE) : (index * PAGE_SIZE + o) % PAGE_SIZE = o := by
  rw [Nat.mul_comm, Nat.mul_add_mod, Nat.mod_eq_of_lt ho]

theorem sector_eq (hv : sectorSizeValid node) (p : Nat) :
    p / node.sectorSize =
      firstSector node (p / PAGE_SIZE) + p % PAGE_SIZE / node.sectorSize := by
  have hss := sectorSize_pos hv
  have hper := perPage_mul hv
  have hpg : p / PAGE_SIZE * PAGE_SIZE = firstSector node (p / PAGE_SIZE) * node.sectorSize := by
    rw [firstSector, Nat.mul_assoc, Nat.mul_comm (PAGE_SIZE / _), hper]
  have hsum : p % PAGE_SIZE + firstSector node (p / PAGE_SIZE) * node.sectorSize = p := by
    rw [← hpg]
    exact Nat.mod_add_div' p PAGE_SIZE
  calc p / node.sectorSize
      = (p % PAGE_SIZE + firstSector node (p / PAGE_SIZE) * node.sectorSize) / node.sectorSize := by
        rw [hsum]
    _ = firstSector node (p / PAGE_SIZE) + p % PAGE_SIZE / node.sectorSize := by
        rw [Nat.add_mul_div_right _ _ hss, Nat.add_comm]

theorem mod_sectorSize_eq (hv : sectorSizeValid node) :
    p % PAGE_SIZE % node.sectorSize = p % node.sectorSize :=
  Nat.mod_mod_of_dvd p ⟨_, (perPage_mul hv).symm⟩

theorem place_lt (hv : sectorSizeValid node) :
    p % PAGE_SIZE / node.sectorSize < PAGE_SIZE / node.sectorSize :=
  Nat.div_lt_div_of_lt_of_dvd ⟨_, (perPage_mul hv).symm⟩ (Nat.mod_lt p (by decide))

theorem lt_validBytes :
    o < validBytes index size ↔ o < PAGE_SIZE ∧ index * PAGE_SIZE + o < size := by
  simp only [validBytes]
  split_ifs <;> omega

theorem lt_ceil_iff (hv : sectorSizeValid node) :
    k < (n + node.sectorSize - 1) / node.sectorSize ↔ k * node.sectorSize < n := by
  have hss := sectorSize_pos hv
  rw [Nat.lt_iff_add_one_le, Nat.le_div_iff_mul_le hss, Nat.add_mul]
  omega

theorem lt_numSectors (hv : sectorSizeValid node) :
    k < numSectors node index size ↔ k * node.sectorSize < validBytes index size :=
  lt_ceil_iff hv

theorem sector_lt (hv : sectorSizeValid node) (hk : k < numSectors node index size) :
    (firstSector node index + k) * node.sectorSize < size := by
  rw [lt_numSectors hv, lt_validBytes] at hk
  rw [Nat.add_mul, firstSector, Nat.mul_assoc, Nat.mul_comm (_ / _), perPage_mul hv]
  exact hk.2

/-! ## The invariant -/

/-- The dirty bits of a page, none if it is not cached. -/
def Fcache.bits (c : Fcache) (index : Nat) : BitVec 8 := (c.tree.get index).elim 0 (·.sectors)

/-- The cache holds the sector of the position dirty: the disk may be behind. -/
def Held (node : Vnode) (c : Fcache) (p : Nat) : Prop :=
  (c.bits (p / PAGE_SIZE)).getLsbD (p % PAGE_SIZE / node.sectorSize) = true

structure PageOk (F : Nat → UInt8) (index : Nat) (pg : CachePage) : Prop where
  data : pg.uptodate = true → ∀ o < PAGE_SIZE, pg.data o = F (index * PAGE_SIZE + o)
  clean : pg.dirty = false → pg.sectors = 0
  fresh : pg.uptodate = false → pg.dirty = false

/-- The file has `size` bytes, those of `F`. -/
structure Coherent (node : Vnode) (m : Nat → Option Nat) (F : Nat → UInt8) (size : Nat)
    (c : Fcache) : Prop where
  page : ∀ {i pg}, c.tree.get i = some pg → PageOk F i pg
  stored : ∀ {p lba}, p < size → m (p / node.sectorSize) = some lba → ¬ Held node c p →
    c.disk lba (p % node.sectorSize) = F p
  hole : ∀ {p}, m (p / node.sectorSize) = none → F p = 0
  past : ∀ {p}, size ≤ p → F p = 0
  reach : ∀ {s}, s * node.sectorSize < size → ∃ e, node.bmap s false = .ok e
  lucky : c.Lucky
  counted : c.Counted

namespace Coherent

section
variable (h : Coherent node m F size c)
include h

theorem of_steady (hs : Steady c c') (hdk : c'.disk = c.disk) (hbi : ∀ i, c'.bits i = c.bits i)
    (hpg : ∀ {i pg}, c'.tree.get i = some pg → PageOk F i pg) : Coherent node m F size c' where
  page := hpg
  stored hp hm hheld := by
    rw [hdk]
    refine h.stored hp hm fun hh => hheld ?_
    rw [Held, hbi]
    exact hh
  hole := h.hole
  past := h.past
  reach := h.reach
  lucky := h.lucky.suffix hs.luck
  counted := hs.counted h.counted

theorem asked (ha : Asked c c') : Coherent node m F size c' := by
  refine h.of_steady ha.stored.steady ha.disk (fun i => ?_) fun hpg => ?_
  · rw [bits, ha.tree, bits]
  · rw [ha.tree] at hpg
    exact h.page hpg

theorem modify (index : Nat) (hdir : ∀ pg, (f pg).dirty = pg.dirty)
    (hsectors : ∀ pg, (f pg).sectors = pg.sectors)
    (hf : ∀ {pg}, c.tree.get index = some pg → PageOk F index (f pg)) :
    Coherent node m F size (c.modify index f) := by
  refine h.of_steady (.modify hdir) rfl (fun i => ?_) fun {i pg} hpg => ?_
  · by_cases hi : index = i
    · subst hi
      simp only [bits, Fcache.modify, get_modify_self]
      cases c.tree.get index with
      | none => rfl
      | some pg => exact hsectors pg
    · simp [bits, Fcache.modify, get_modify_ne hi]
  · simp only [Fcache.modify] at hpg
    by_cases hi : index = i
    · subst hi
      rw [get_modify_self] at hpg
      obtain ⟨pg', hpg', rfl⟩ := map_eq_some_iff.mp hpg
      exact hf hpg'
    · rw [get_modify_ne hi] at hpg
      exact h.page hpg

theorem touch : Coherent node m F size (c.modify index fun pg => { pg with accessed := a }) :=
  h.modify index (fun _ => rfl) (fun _ => rfl) fun hpg =>
    ⟨(h.page hpg).data, (h.page hpg).clean, (h.page hpg).fresh⟩

theorem erase (hcln : ∀ pg, c.tree.get index = some pg → pg.dirty = false) :
    Coherent node m F size { c with tree := c.tree.erase index } := by
  refine h.of_steady (.erase hcln) rfl (fun i => ?_) fun {i pg} hpg => ?_
  · by_cases hi : index = i
    · subst hi
      simp only [bits, get_erase_self]
      cases hpg : c.tree.get index with
      | none => rfl
      | some pg => exact ((h.page hpg).clean (hcln pg hpg)).symm
    · simp [bits, get_erase_ne hi]
  · by_cases hi : index = i
    · subst hi
      simp at hpg
    · rw [get_erase_ne hi] at hpg
      exact h.page hpg

theorem put_blank (hnone : c.tree.get index = none) :
    Coherent node m F size { c with tree := c.tree.put index .blank } := by
  refine h.of_steady (.put hnone rfl) rfl (fun i => ?_) fun {i pg} hpg => ?_
  · by_cases hi : index = i
    · subst hi
      simp [bits, hnone, CachePage.blank]
    · simp [bits, get_put_ne hi]
  · by_cases hi : index = i
    · subst hi
      rw [get_put_self, some.injEq] at hpg
      subst hpg
      exact ⟨fun h => absurd h (by simp [CachePage.blank]), fun _ => rfl, fun _ => rfl⟩
    · rw [get_put_ne hi] at hpg
      exact h.page hpg

/-! ## Pages coming and going -/

theorem reclaimVisit :
    Coherent node m F size (reclaimVisit c index) := by
  unfold Fs.reclaimVisit
  split
  · exact h
  next pg hpg =>
  split
  · exact h.touch
  split
  · exact h
  next hcln =>
  refine h.erase fun pg' hpg' => ?_
  cases hpg.symm.trans hpg'
  simp only [Bool.or_eq_true, not_or, Bool.not_eq_true] at hcln
  exact hcln.1

theorem fcacheReclaim : Coherent node m F size (fcacheReclaim c visits) := by
  induction visits generalizing c with
  | nil => exact h
  | cons i visits ih => exact ih h.reclaimVisit

/-- `get_page` succeeds, whatever it lets go on the way. -/
theorem getPage (index : Nat) :
    ∃ c' pg, getPage c index = (true, c') ∧ Coherent node m F size c' ∧
      c'.tree.get index = some pg := by
  unfold Fs.getPage
  split
  · next hsm =>
    obtain ⟨pg, hpg⟩ := isSome_iff_exists.mp hsm
    exact ⟨c, pg, rfl, h, hpg⟩
  have h' : Coherent node m F size (Fs.fcacheReclaim c c.chance.visits).spend :=
    h.fcacheReclaim.asked .spend
  simp only [h.lucky.chance, Bool.not_true, Bool.false_eq_true, if_false]
  split
  · next hsm =>
    obtain ⟨pg, hpg⟩ := isSome_iff_exists.mp hsm
    exact ⟨_, pg, rfl, h', hpg⟩
  · next hnone =>
    exact ⟨_, .blank, rfl, h'.put_blank (by simpa using hnone), get_put_self⟩

/-! ## Filling a page -/

variable {pg : CachePage}

theorem not_held_of_clean (hpg : c.tree.get (p / PAGE_SIZE) = some pg) (hcln : pg.dirty = false) :
    ¬ Held node c p := by
  rw [Held, bits, hpg, elim_some, (h.page hpg).clean hcln]
  simp

theorem sectorByte_eq (hp : p < size) (hheld : ¬ Held node c p) :
    sectorByte m c.disk (p / node.sectorSize) (p % node.sectorSize) = F p := by
  unfold sectorByte
  cases hm : m (p / node.sectorSize) with
  | none => exact (h.hole hm).symm
  | some lba => exact h.stored hp hm hheld

theorem reach_page (hv : sectorSizeValid node) (hk : k < numSectors node index size) :
    ∃ e, node.bmap (firstSector node index + k) false = .ok e :=
  h.reach (sector_lt hv hk)

theorem answers (hmap : SectorMap node m) (hv : sectorSizeValid node)
    (hk : k < numSectors node index size) : Answers node (firstSector node index + k) :=
  (h.reach_page hv hk).imp fun _ he => ⟨he, hmap.count he⟩

theorem fillPage (hmap : SectorMap node m) (hv : sectorSizeValid node)
    (hpg : c.tree.get index = some pg)
    (hcln : pg.dirty = false) :
    ∃ c', fillPage node c index size = (.ok (), c') ∧ Coherent node m F size c' ∧
      (c'.tree.get index).any (·.uptodate) = true := by
  have hss := sectorSize_pos hv
  obtain ⟨data, c1, hfl, -, hdt⟩ := fillLoop_spec hmap hss h.lucky (Nat.le_add_left _ 0)
    (fun j hj => h.reach_page hv hj) (fun o _ => rfl)
  have hask := asked_fillLoop hfl
  have hby : ∀ o < PAGE_SIZE, (if o < validBytes index size then data o else 0) =
      F (index * PAGE_SIZE + o) := by
    intro o ho
    split
    · next hval =>
      have hnum : o / node.sectorSize < numSectors node index size := by
        rw [lt_numSectors hv]
        exact (Nat.div_mul_le_self o _).trans_lt hval
      have hheld := h.not_held_of_clean (p := index * PAGE_SIZE + o) (by rwa [page_add ho]) hcln
      rw [hdt o ((Nat.div_lt_iff_lt_mul hss).mp hnum) (by simp),
        ← h.sectorByte_eq (lt_validBytes.mp hval).2 hheld,
        sector_eq hv (index * PAGE_SIZE + o), page_add ho, place_add ho,
        ← mod_sectorSize_eq (p := index * PAGE_SIZE + o) hv, place_add ho]
    · next hval =>
      refine (h.past ?_).symm
      rw [lt_validBytes] at hval
      omega
  have hcoherent := (h.asked hask).modify index
    (f := fun pg => { pg with
      data := fun o => if o < validBytes index size then data o else 0, uptodate := true })
    (fun _ => rfl) (fun _ => rfl) fun hpg' =>
      ⟨fun _ => hby, ((h.asked hask).page hpg').clean, fun h => absurd h (by simp)⟩
  refine ⟨_, ?_, hcoherent, ?_⟩
  · rw [Fs.fillPage, hfl]
  · simp [Fcache.modify, hask.tree, hpg]

theorem fetchPage (hmap : SectorMap node m) (hv : sectorSizeValid node)
    (hpg : c.tree.get index = some pg) :
    ∃ c', fetchPage node c index size = (.ok (), c') ∧ Coherent node m F size c' ∧
      (c'.tree.get index).any (·.uptodate) = true := by
  unfold Fs.fetchPage
  split
  · next hup => exact ⟨c, rfl, h, hup⟩
  next hup =>
  have hold : pg.uptodate = false := by simpa [hpg] using hup
  obtain ⟨c', hfl, hrs⟩ := h.fillPage hmap hv hpg ((h.page hpg).fresh hold)
  exact ⟨c', by rw [hfl], hrs⟩

end

/-! ## Writing pages back -/

theorem numSectors_le (hv : sectorSizeValid node) :
    numSectors node index size ≤ PAGE_SIZE / node.sectorSize := by
  refine not_lt.mp fun hlt => ?_
  rw [lt_numSectors hv, Nat.mul_comm, perPage_mul hv, lt_validBytes] at hlt
  exact lt_irrefl _ hlt.1

theorem page_of_sector (hv : sectorSizeValid node)
    (h1 : firstSector node index ≤ p / node.sectorSize)
    (h2 : p / node.sectorSize < firstSector node index + numSectors node index size) :
    p / PAGE_SIZE = index := by
  have hle : numSectors node index size ≤ _ := numSectors_le hv
  have hlt := place_lt (p := p) hv
  rw [sector_eq hv p] at h1 h2
  simp only [firstSector] at h1 h2
  generalize PAGE_SIZE / node.sectorSize = n at *
  generalize p % PAGE_SIZE / node.sectorSize = k at *
  have h3 : index * n < (p / PAGE_SIZE + 1) * n := by rw [Nat.add_mul]; omega
  have h4 : p / PAGE_SIZE * n < (index + 1) * n := by rw [Nat.add_mul]; omega
  have h3 := Nat.lt_of_mul_lt_mul_right h3
  have h4 := Nat.lt_of_mul_lt_mul_right h4
  omega

section
variable (h : Coherent node m F size c)
include h

/-- Once the dirty sectors of a page are written, the disk has every byte of the page below the
end of the file. -/
theorem stored_pageWritten (hv : sectorSizeValid node) (hpg : c.tree.get index = some pg)
    (hup : pg.uptodate = true) (hp : p < size) (hm : m (p / node.sectorSize) = some lba)
    (hwrn : PageWritten node m pg.data pg.sectors (firstSector node index)
      (numSectors node index size) 0 c.disk disk') (hheld : p / PAGE_SIZE ≠ index → ¬ Held node c p)
    : disk' lba (p % node.sectorSize) = F p := by
  rw [hwrn _ _ _ hm (Nat.mod_lt _ (sectorSize_pos hv))]
  by_cases hpa : p / PAGE_SIZE = index
  · subst hpa
    have hplc : p / node.sectorSize - firstSector node (p / PAGE_SIZE) =
        p % PAGE_SIZE / node.sectorSize := by
      rw [sector_eq hv p, Nat.add_sub_cancel_left]
    have hnum : p % PAGE_SIZE / node.sectorSize < numSectors node (p / PAGE_SIZE) size := by
      rw [lt_numSectors hv]
      refine (Nat.div_mul_le_self _ _).trans_lt (lt_validBytes.mpr ⟨Nat.mod_lt _ (by decide), ?_⟩)
      rw [Nat.div_add_mod']
      exact hp
    rw [hplc]
    split
    · have hin : p % PAGE_SIZE / node.sectorSize * node.sectorSize + p % node.sectorSize =
          p % PAGE_SIZE := by
        rw [← mod_sectorSize_eq hv]
        exact Nat.div_add_mod' _ _
      rw [hin, (h.page hpg).data hup _ (Nat.mod_lt _ (by decide)), Nat.div_add_mod']
    · next hcln =>
      refine h.stored hp hm fun hbit => hcln ⟨?_, ?_, ?_⟩
      · rw [sector_eq hv p]
        exact Nat.le_add_right _ _
      · rw [sector_eq hv p]
        exact Nat.add_lt_add_left hnum _
      · rwa [Held, bits, hpg] at hbit
  · rw [if_neg fun hin => hpa (page_of_sector hv hin.1 hin.2.1)]
    exact h.stored hp hm (hheld hpa)

theorem writebackPage (hmap : SectorMap node m) (hv : sectorSizeValid node) (index : Nat) :
    ∃ c', writebackPage node size (.ok (), c) index = (.ok (), c') ∧
      Coherent node m F size c' := by
  unfold Fs.writebackPage
  dsimp only
  split
  · exact ⟨c, rfl, h⟩
  next pg hpg =>
  split
  · exact ⟨c, rfl, h⟩
  next hdir =>
  have hok := h.page hpg
  have hup : pg.uptodate = true := by
    by_contra hup
    exact hdir (by simp [hok.fresh (by simpa using hup)])
  obtain ⟨c1, hwr⟩ : ∃ c1, Fs.writePage node c pg index size = (.ok (), c1) :=
    writePageLoop_ok h.lucky fun j hj => h.answers hmap hv hj
  have hwrn := writePageLoop_written hmap hwr (Nat.le_add_left _ 0)
  have hsto := stored_writePageLoop hwr
  have hget : ∀ i, c1.tree.get i = c.tree.get i := fun i => by rw [hsto.tree]
  have hdirty' : pg.dirty = true := by simpa using hdir
  refine ⟨markClean c1 index, by rw [hwr], ?_⟩
  refine ⟨fun {i pg'} hpg' => ?_, fun {p lba} hp hm hheld => ?_, h.hole, h.past, h.reach, ?_, ?_⟩
  · rw [get_markClean] at hpg'
    split at hpg'
    · next hi =>
      subst hi
      rw [hget, hpg, map_some, if_pos hdirty', some.injEq] at hpg'
      subst hpg'
      exact ⟨hok.data, fun _ => rfl, fun _ => rfl⟩
    · exact h.page (by rwa [hget] at hpg')
  · rw [disk_markClean]
    refine h.stored_pageWritten hv hpg hup hp hm hwrn fun hne hbit => hheld ?_
    rwa [Held, bits, get_markClean, if_neg (Ne.symm hne), hget]
  · exact h.lucky.suffix (steady_markClean.luck.trans hsto.luck)
  · exact steady_markClean.counted (hsto.steady.counted h.counted)

/-- A writeback leaves the contents of the file alone and succeeds. -/
theorem writebackLocked (hmap : SectorMap node m) (hv : sectorSizeValid node) :
    ∃ c', writebackLocked node c size = (.ok (), c') ∧ Coherent node m F size c' :=
  writebackLocked_rule (fun _ i h => h.writebackPage hmap hv i) h

theorem throttle (hmap : SectorMap node m) (hv : sectorSizeValid node) :
    Coherent node m F size (throttle node c size) := by
  unfold Fs.throttle
  split
  · obtain ⟨c', hwb, h'⟩ := (h.asked .spend).writebackLocked hmap hv
    rw [hwb]
    exact h'
  · exact h.asked .spend

theorem stored_of_numDirty_eq_zero (h0 : c.numDirty = 0) (hp : p < size)
    (hm : m (p / node.sectorSize) = some lba) : c.disk lba (p % node.sectorSize) = F p := by
  refine h.stored hp hm fun hheld => ?_
  have hcln := clean_of_numDirty_eq_zero h.counted h0 (p / PAGE_SIZE)
  cases hpg : c.tree.get (p / PAGE_SIZE) with
  | none => simp [Held, bits, hpg] at hheld
  | some pg => exact h.not_held_of_clean hpg (hcln pg hpg) hheld

end

end Coherent

end Vex.Fs
