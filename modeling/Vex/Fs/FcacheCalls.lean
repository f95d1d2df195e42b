import Vex.Fs.FcacheCoherent

/-! What each call of the file cache does to the contents of the file, while every request
succeeds and the sectors of a page fit its eight dirty bits: a read returns them, a write
overlays them, a truncation cuts them, and in between the cache stays coherent. -/

namespace Vex.Fs

open Lib Mm Option

variable {node : Vnode} {m : Nat → Option Nat} {c c' : Fcache} {F : Nat → UInt8}
  {index size pos p : Nat} {chunk : List UInt8}

/-! ## Dirty bits -/

/-- The span of the sectors `first..last` of a page that has at most eight of them. -/
theorem span_bit : ∀ first < 8, ∀ last < 8, ∀ k < 8, first ≤ k → k ≤ last →
    ((((2#32 <<< last) - 1) &&& ~~~((1#32 <<< first) - 1)).setWidth 8).getLsbD k = true := by
  decide +kernel

theorem sectorSpan_bit (hv : sectorSizeValid node) (h8 : PAGE_SIZE / node.sectorSize ≤ 8)
    (hfit : inPage + length ≤ PAGE_SIZE) (h1 : inPage ≤ o) (h2 : o < inPage + length) :
    ((sectorSpan node inPage length).setWidth 8).getLsbD (o / node.sectorSize) = true := by
  have hdvd : node.sectorSize ∣ PAGE_SIZE := ⟨_, (perPage_mul hv).symm⟩
  have hlt : ∀ x < PAGE_SIZE, x / node.sectorSize < 8 := fun x hx =>
    (Nat.div_lt_div_of_lt_of_dvd hdvd hx).trans_le h8
  refine span_bit _ (hlt _ (by omega)) _ (hlt _ (by omega)) _ (hlt _ (by omega)) ?_ ?_
  · exact Nat.div_le_div_right h1
  · exact Nat.div_le_div_right (by omega)

theorem chunk_page (hfit : pos % PAGE_SIZE + chunk.length ≤ PAGE_SIZE) (h1 : pos ≤ p)
    (h2 : p < pos + chunk.length) :
    p / PAGE_SIZE = pos / PAGE_SIZE ∧ pos % PAGE_SIZE ≤ p % PAGE_SIZE ∧
      p % PAGE_SIZE < pos % PAGE_SIZE + chunk.length := by
  simp only [PAGE_SIZE] at *
  omega

/-! ## Writing a chunk -/

theorem disk_storeChunk : (storeChunk node c pos chunk).disk = c.disk := by
  rw [storeChunk, disk_markDirty]
  rfl

theorem get_storeChunk_ne (hi : pos / PAGE_SIZE ≠ i) :
    (storeChunk node c pos chunk).tree.get i = c.tree.get i := by
  rw [storeChunk, get_markDirty, if_neg hi, Fcache.modify, Table.get_modify_ne hi]

variable {pg : CachePage}

theorem get_storeChunk (hpg : c.tree.get (pos / PAGE_SIZE) = some pg) :
    (storeChunk node c pos chunk).tree.get (pos / PAGE_SIZE) =
      some { pg with
        data := overlay (pos % PAGE_SIZE) chunk pg.data, uptodate := true, accessed := true,
        sectors := pg.sectors ||| (sectorSpan node (pos % PAGE_SIZE) chunk.length).setWidth 8,
        dirty := true } := by
  rw [storeChunk, get_markDirty]
  simp [Fcache.modify, hpg]

theorem Held.storeChunk (h : Held node c p) : Held node (storeChunk node c pos chunk) p := by
  rw [Held, Fcache.bits] at h ⊢
  by_cases hi : pos / PAGE_SIZE = p / PAGE_SIZE
  · cases hpg : c.tree.get (p / PAGE_SIZE) with
    | none => simp [hpg] at h
    | some pg =>
      rw [hpg, elim_some] at h
      rw [← hi] at hpg ⊢
      rw [get_storeChunk hpg, elim_some, BitVec.getLsbD_or, h, Bool.true_or]
  · rwa [get_storeChunk_ne hi]

theorem held_storeChunk (hv : sectorSizeValid node) (h8 : PAGE_SIZE / node.sectorSize ≤ 8)
    (hpg : c.tree.get (pos / PAGE_SIZE) = some pg)
    (hfit : pos % PAGE_SIZE + chunk.length ≤ PAGE_SIZE) (h1 : pos ≤ p)
    (h2 : p < pos + chunk.length) : Held node (storeChunk node c pos chunk) p := by
  obtain ⟨hpa, h1, h2⟩ := chunk_page hfit h1 h2
  rw [Held, Fcache.bits, hpa, get_storeChunk hpg, elim_some, BitVec.getLsbD_or,
    sectorSpan_bit hv h8 hfit h1 h2, Bool.or_true]

theorem overlay_outside (h : p < pos ∨ pos + chunk.length ≤ p) : overlay pos chunk F p = F p :=
  h.elim (fun h => overlay_of_lt h) fun h => overlay_of_ge h

/-- The positions `[pos, pos + length)` of the file have a place on disk. -/
def Mapped (node : Vnode) (m : Nat → Option Nat) (pos length : Nat) : Prop :=
  ∀ p, pos ≤ p → p < pos + length → ∃ lba, m (p / node.sectorSize) = some lba

namespace Coherent

section
variable (h : Coherent node m F size c) (hpg : c.tree.get (pos / PAGE_SIZE) = some pg)
  (hfit : pos % PAGE_SIZE + chunk.length ≤ PAGE_SIZE)
  (hup : chunk.length < PAGE_SIZE → pg.uptodate = true)
include h hpg hfit hup

theorem page_storeChunk (hpg' : (storeChunk node c pos chunk).tree.get i = some pg') :
    PageOk (overlay pos chunk F) i pg' := by
  by_cases hi : pos / PAGE_SIZE = i
  · subst hi
    rw [get_storeChunk hpg, some.injEq] at hpg'
    subst hpg'
    refine ⟨fun _ o ho => ?_, nofun, nofun⟩
    have hshift : overlay (pos % PAGE_SIZE) chunk pg.data o =
        overlay (pos / PAGE_SIZE * PAGE_SIZE + pos % PAGE_SIZE) chunk F
          (pos / PAGE_SIZE * PAGE_SIZE + o) :=
      overlay_shift _ fun hout => (h.page hpg).data (hup (by omega)) o ho
    rwa [Nat.div_add_mod'] at hshift
  · rw [get_storeChunk_ne hi] at hpg'
    have hok := h.page hpg'
    refine ⟨fun hup o ho => ?_, hok.clean, hok.fresh⟩
    rw [hok.data hup o ho, overlay_outside]
    by_contra hnot
    have hpa := (chunk_page hfit (p := i * PAGE_SIZE + o) (by omega) (by omega)).1
    rw [page_add ho] at hpa
    exact hi hpa.symm

theorem storeChunk (hmap : SectorMap node m) (hv : sectorSizeValid node)
    (h8 : PAGE_SIZE / node.sectorSize ≤ 8) (hpos : pos ≤ size)
    (hmp : Mapped node m pos chunk.length) : Coherent node m (overlay pos chunk F)
      (max size (pos + chunk.length)) (storeChunk node c pos chunk) := by
  have hstd : Steady c (Fs.storeChunk node c pos chunk) := steady_storeChunk
  have hin : ∀ p, (p < pos ∨ pos + chunk.length ≤ p) ∨ pos ≤ p ∧ p < pos + chunk.length := by
    intro p
    omega
  refine ⟨h.page_storeChunk hpg hfit hup, fun {p lba} hp hm hheld => ?_, fun {p} hm => ?_,
    fun {p} hp => ?_, fun {s} hs => ?_, h.lucky.suffix hstd.luck, hstd.counted h.counted⟩
  · rcases hin p with hp' | hp'
    · rw [disk_storeChunk, overlay_outside hp']
      exact h.stored (by omega) hm fun hbit => hheld hbit.storeChunk
    · exact absurd (held_storeChunk hv h8 hpg hfit hp'.1 hp'.2) hheld
  · rcases hin p with hp' | hp'
    · rw [overlay_outside hp', h.hole hm]
    obtain ⟨lba, hlba⟩ := hmp p hp'.1 hp'.2
    rw [hm] at hlba
    cases hlba
  · rw [overlay_outside (by omega), h.past (by omega)]
  by_cases hs' : s * node.sectorSize < size
  · exact h.reach hs'
  obtain ⟨lba, hlba⟩ := hmp (s * node.sectorSize) (by omega) (by omega)
  rw [Nat.mul_div_cancel _ (sectorSize_pos hv)] at hlba
  exact hmap.total hlba false

end

/-- A page that never became up to date is taken out again. -/
theorem removePage (h : Coherent node m F size c)
    (hcln : ∀ pg, c.tree.get index = some pg → pg.dirty = false) :
    Coherent node m F size (removePage c index) := by
  rw [Fs.removePage, markClean_of_clean hcln]
  exact h.erase hcln

end Coherent

theorem Mapped.of_allocateSpan (hmap : SectorMap node m) (hv : sectorSizeValid node)
    (h : allocateSpan node c pos length = (.ok (), c')) : Mapped node m pos length := by
  intro p h1 h2
  refine allocateLoop_mapped hmap (by omega) h _ (Nat.div_le_div_right h1) ?_
  rw [lt_ceil_iff hv]
  exact (Nat.div_mul_le_self _ _).trans_lt h2

theorem Mapped.allocateSpan (hmap : SectorMap node m) (hv : sectorSizeValid node) (hl : c.Lucky)
    (hpos : 0 < length) (h : Mapped node m pos length) :
    ∃ c', allocateSpan node c pos length = (.ok (), c') := by
  have hss := sectorSize_pos hv
  refine allocateLoop_ok hmap hl fun s h1 h2 => ?_
  rw [lt_ceil_iff hv] at h2
  rw [Nat.div_le_iff_le_mul_add_pred hss] at h1
  -- a position of the span in the sector
  have hsec : max pos (s * node.sectorSize) / node.sectorSize = s := by
    rcases le_total pos (s * node.sectorSize) with hle | hle
    · rw [max_eq_right hle, Nat.mul_div_cancel _ hss]
    rw [max_eq_left hle, Nat.div_eq_iff hss]
    rw [Nat.mul_comm] at h1
    omega
  rw [← hsec]
  exact h _ (le_max_left _ _) (by omega)

/-- A chunk for a page that is there: it is written, or nothing is; and it is written if its
positions have a place on disk. -/
theorem Coherent.writeChunk (h : Coherent node m F size c) (hmap : SectorMap node m)
    (hv : sectorSizeValid node) (h8 : PAGE_SIZE / node.sectorSize ≤ 8)
    (hpg : c.tree.get (pos / PAGE_SIZE) = some pg) (hpos : pos ≤ size) (chunk : List UInt8)
    (hfit : pos % PAGE_SIZE + chunk.length ≤ PAGE_SIZE) :
    ∃ c', (writeChunk node c pos size chunk = (.ok (), c') ∧
        Coherent node m (overlay pos chunk F) (max size (pos + chunk.length)) c') ∨
      ∃ e, writeChunk node c pos size chunk = (.error e, c') ∧ Coherent node m F size c' ∧
        (0 < chunk.length → ¬ Mapped node m pos chunk.length) := by
  -- the page after the fill, if there was one
  obtain ⟨c1, pg1, hfet, h₁, hpg1, hup⟩ : ∃ c1 pg1,
      (if chunk.length < PAGE_SIZE then Fs.fetchPage node c (pos / PAGE_SIZE) size
        else (.ok (), c)) = (.ok (), c1) ∧ Coherent node m F size c1 ∧
        c1.tree.get (pos / PAGE_SIZE) = some pg1 ∧
        (chunk.length < PAGE_SIZE → pg1.uptodate = true) := by
    split
    · obtain ⟨c1, hfet, h₁, hup⟩ := h.fetchPage hmap hv hpg
      obtain ⟨pg1, hpg1, hup⟩ := (any_eq_true _ _).mp hup
      exact ⟨c1, pg1, hfet, h₁, hpg1, fun _ => hup⟩
    · next hfu => exact ⟨c, pg, rfl, h, hpg, fun hlt => absurd hlt hfu⟩
  unfold Fs.writeChunk
  dsimp only
  rw [hfet]
  dsimp only
  rcases hal : allocateSpan node c1 pos chunk.length with ⟨r, c2⟩
  have hask := asked_allocateSpan hal
  have h₂ := h₁.asked hask
  have hpg2 : c2.tree.get (pos / PAGE_SIZE) = some pg1 := by rw [hask.tree, hpg1]
  cases r with
  | ok u =>
    exact ⟨_, .inl ⟨rfl, h₂.storeChunk hpg2 hfit hup hmap hv h8 hpos
      (Mapped.of_allocateSpan hmap hv hal)⟩⟩
  | error e =>
    refine ⟨_, .inr ⟨e, rfl, ?_, fun hne hmp => ?_⟩⟩
    · rw [hpg2, any_some]
      split
      · exact h₂
      next hold =>
      refine h₂.removePage fun pg' hpg' => (h₂.page hpg').fresh ?_
      cases hpg2.symm.trans hpg'
      simpa using hold
    · obtain ⟨c3, hok⟩ := hmp.allocateSpan hmap hv h₁.lucky hne
      rw [hok] at hal
      cases hal

theorem Coherent.getPageForWrite (h : Coherent node m F size c) (index : Nat) :
    ∃ c' pg, Fs.getPageForWrite node c index size = (true, c') ∧ Coherent node m F size c' ∧
      c'.tree.get index = some pg := by
  obtain ⟨c', pg, hget, hrs⟩ := h.getPage index
  exact ⟨c', pg, by rw [Fs.getPageForWrite, hget], hrs⟩

/-! ## The loops -/

/-- `n` bytes of the file from `offset` on. -/
def slice (F : Nat → UInt8) (offset n : Nat) : List UInt8 :=
  (List.range n).map fun j => F (offset + j)

theorem slice_add (F : Nat → UInt8) (offset n k : Nat) :
    slice F offset (n + k) = slice F offset n ++ slice F (offset + n) k := by
  simp [slice, List.range_add, Nat.add_assoc]

theorem Coherent.readLoop (h : Coherent node m F size c) (hmap : SectorMap node m)
    (hv : sectorSizeValid node) (offset : Nat) (hdone : done ≤ count) (hfu : count ≤ done + fuel)
    :
    ∃ c', readLoop node offset count size fuel (slice F offset done) c =
      (slice F offset count, .ok (), c') ∧ Coherent node m F size c' := by
  have hlen : (slice F offset done).length = done := by simp [slice]
  induction fuel generalizing done c with
  | zero =>
    obtain rfl : count = done := by omega
    exact ⟨c, rfl, h⟩
  | succ fuel ih =>
    unfold Fs.readLoop
    rw [hlen]
    split
    · obtain rfl : count = done := by omega
      exact ⟨c, rfl, h⟩
    next hmr =>
    obtain ⟨c1, pg, hget, h₁, hpg⟩ := h.getPage ((offset + done) / PAGE_SIZE)
    obtain ⟨c2, hfet, h₂, hup⟩ := h₁.fetchPage hmap hv hpg
    obtain ⟨pg2, hpg2, hup⟩ := (any_eq_true _ _).mp hup
    dsimp only
    rw [hget]
    dsimp only
    rw [hfet]
    dsimp only
    have hplc : (offset + done) % PAGE_SIZE < PAGE_SIZE := Nat.mod_lt _ (by decide)
    generalize hchk : min (PAGE_SIZE - (offset + done) % PAGE_SIZE) (count - done) = chunk
    have hby : pageBytes (c2.modify ((offset + done) / PAGE_SIZE) fun pg =>
        { pg with accessed := true }) ((offset + done) / PAGE_SIZE) ((offset + done) % PAGE_SIZE)
        chunk = slice F (offset + done) chunk := by
      refine List.map_congr_left fun j hj => ?_
      have hj := List.mem_range.mp hj
      simp only [Fcache.modify, Table.get_modify_self, hpg2, map_some, getD_some]
      rw [(h₂.page hpg2).data hup _ (by omega), ← Nat.add_assoc, Nat.div_add_mod']
    rw [hby, ← slice_add]
    exact ih h₂.touch (by omega) (by omega) (by simp [slice])

theorem Mapped.mono (h : Mapped node m pos length) (h1 : pos ≤ pos')
    (h2 : pos' + length' ≤ pos + length) : Mapped node m pos' length' :=
  fun p hp hp' => h p (by omega) (by omega)

section
variable (h : Coherent node m F size c) (hmap : SectorMap node m) (hv : sectorSizeValid node)
include h hmap hv

/-- A write that came to `done'` has put those bytes into the file; it stopped early only at a
position without a place on disk. -/
theorem Coherent.writeLoop (h8 : PAGE_SIZE / node.sectorSize ≤ 8) (hdone : done ≤ bytes.length)
    (hfu : bytes.length ≤ done + fuel) (hpos : offset + done ≤ size) :
    ∃ done' r c', writeLoop node bytes offset fuel done size c =
        (done', max size (offset + done'), r, c') ∧ done ≤ done' ∧ done' ≤ bytes.length ∧
      Coherent node m (overlay (offset + done) ((bytes.take done').drop done) F)
        (max size (offset + done')) c' ∧
      (r = .ok () ∧ done' = bytes.length ∨
        (∃ e, r = .error e) ∧ ¬ Mapped node m (offset + done) (bytes.length - done)) := by
  induction fuel generalizing done size F c with
  | zero =>
    obtain rfl : done = bytes.length := by omega
    refine ⟨_, .ok (), c, ?_, le_rfl, le_rfl, ?_, .inl ⟨rfl, rfl⟩⟩
    · rw [Fs.writeLoop, max_eq_left hpos]
    · rw [max_eq_left hpos]
      simpa using h
  | succ fuel ih =>
    unfold Fs.writeLoop
    split
    · obtain rfl : done = bytes.length := by omega
      refine ⟨_, .ok (), c, by rw [max_eq_left hpos], le_rfl, le_rfl, ?_, .inl ⟨rfl, rfl⟩⟩
      rw [max_eq_left hpos]
      simpa using h
    next hmr =>
    obtain ⟨c1, pg, hget, h₁, hpg⟩ := h.getPageForWrite ((offset + done) / PAGE_SIZE)
    have hplc : (offset + done) % PAGE_SIZE < PAGE_SIZE := Nat.mod_lt _ (by decide)
    dsimp only
    rw [hget]
    dsimp only
    generalize hn : min (PAGE_SIZE - (offset + done) % PAGE_SIZE) (bytes.length - done) = n
    have hlen : ((bytes.drop done).take n).length = n := by simp; omega
    obtain ⟨c2, ⟨hchk, h₂⟩ | ⟨e, hchk, h₂, humap⟩⟩ :=
      h₁.writeChunk hmap hv h8 hpg hpos ((bytes.drop done).take n) (by omega)
    · rw [hlen] at h₂
      obtain ⟨done', r, c', hrun, hle, hle', h', hr⟩ := ih h₂ (show done + n ≤ _ by omega)
        (by omega) (by omega)
      have hmax : max (max size (offset + done + n)) (offset + done') =
          max size (offset + done') := by omega
      rw [hmax] at hrun h'
      refine ⟨done', r, c', ?_, by omega, hle', ?_, hr.imp_right fun hr => ⟨hr.1, fun hm =>
        hr.2 (hm.mono (by omega) (by omega))⟩⟩
      · rw [hchk]
        exact hrun
      have hspl : (bytes.take done').drop done =
          (bytes.drop done).take n ++ (bytes.take done').drop (done + n) := by
        have hcnt : done' - done = n + (done' - (done + n)) := by omega
        rw [List.drop_take, List.drop_take, hcnt, List.take_add, List.drop_drop]
      have happ := overlay_append (offset + done) ((bytes.drop done).take n)
        ((bytes.take done').drop (done + n)) F
      rw [hlen] at happ
      rw [hspl, ← happ, Nat.add_assoc]
      exact h'
    · refine ⟨done, .error e, c2, ?_, le_rfl, hdone, ?_, .inr ⟨⟨e, rfl⟩, fun hm => ?_⟩⟩
      · rw [hchk, max_eq_left hpos]
      · rw [max_eq_left hpos]
        simpa using h₂
      · exact humap (by omega) (hm.mono le_rfl (by omega))

/-! ## The calls -/

theorem Coherent.fcacheRead (count offset : Nat) :
    ∃ c', fcacheRead node c count offset size =
      (.ok (slice F offset (min count (size - offset))), c') ∧ Coherent node m F size c' := by
  unfold Fs.fcacheRead
  rw [hv]
  simp only [Bool.not_true, Bool.false_eq_true, if_false]
  split
  · next hend =>
    rw [Nat.sub_eq_zero_of_le hend, Nat.min_zero]
    exact ⟨c, rfl, h⟩
  obtain ⟨c', hrd, h'⟩ := h.readLoop hmap hv offset (Nat.zero_le (min count (size - offset)))
    (Nat.le_add_left _ 0)
  refine ⟨c', ?_, h'⟩
  rw [show (slice F offset 0) = [] from rfl] at hrd
  rw [hrd]
  rfl

/-- A write of `n` bytes; it is short only where the file has no place on disk. -/
theorem Coherent.fcacheWrite (h8 : PAGE_SIZE / node.sectorSize ≤ 8) (bytes : List UInt8)
    (hoff : offset ≤ size) :
    ∃ r c', fcacheWrite node c bytes offset size = (r, c') ∧
      ((∃ n ≤ bytes.length, r = .ok n ∧ (Mapped node m offset bytes.length → n = bytes.length) ∧
          Coherent node m (overlay offset (bytes.take n) F) (max size (offset + n)) c') ∨
        (∃ e, r = .error e) ∧ ¬ Mapped node m offset bytes.length ∧ Coherent node m F size c') := by
  obtain ⟨n, r, c1, hlp, -, hle, h₁, hr⟩ := h.writeLoop hmap hv h8 (Nat.zero_le bytes.length)
    (Nat.le_add_left _ 0) hoff
  have h₂ := h₁.throttle hmap hv
  have hcl : Fs.fcacheWrite node c bytes offset size =
      (transferred n n r, Fs.throttle node c1 (max size (offset + n))) := by
    rw [Fs.fcacheWrite, hlp, hv]
    rfl
  simp only [Nat.add_zero, List.drop_zero, Nat.sub_zero] at h₂ hr
  refine ⟨_, _, hcl, ?_⟩
  rcases hr with ⟨rfl, rfl⟩ | ⟨⟨e, rfl⟩, humap⟩
  · exact .inl ⟨_, le_rfl, rfl, fun _ => rfl, h₂⟩
  by_cases hn : n = 0
  · subst hn
    refine .inr ⟨⟨e, rfl⟩, humap, ?_⟩
    simpa [hoff] using h₂
  · exact .inl ⟨n, hle, if_neg hn, fun hm => absurd hm humap, h₂⟩

end

variable {batch : List Nat}

theorem removeBatch_get (i : Nat) :
    (batch.foldl removePage c).tree.get i = if i ∈ batch then none else c.tree.get i := by
  induction batch generalizing c with
  | nil => simp
  | cons j batch ih =>
    rw [List.foldl_cons, ih, get_removePage]
    by_cases hj : j = i
    · simp [hj]
    · simp [hj, Ne.symm hj]

theorem removeBatch_disk : (batch.foldl removePage c).disk = c.disk := by
  induction batch generalizing c with
  | nil => rfl
  | cons j batch ih => rw [List.foldl_cons, ih, disk_removePage]

theorem above_removePage : (removePage c index).tree.above p ≤ c.tree.above p := by
  refine Table.above_erase_le.trans (le_of_eq ?_)
  rw [Table.above, cleans_markClean.keys, Table.above]

theorem above_removeBatch :
    (batch.foldl removePage c).tree.above p ≤ c.tree.above p := by
  induction batch generalizing c with
  | nil => exact le_rfl
  | cons j batch ih => exact ih.trans above_removePage

theorem truncateLoop_get (hfu : c.tree.above keep < fuel) (i : Nat) :
    (truncateLoop keep fuel c).tree.get i = if keep ≤ i then none else c.tree.get i := by
  induction fuel generalizing c with
  | zero => exact absurd hfu (Nat.not_lt_zero _)
  | succ fuel ih =>
    unfold truncateLoop
    split
    · next hnil =>
      split
      · next hi =>
        refine eq_none_iff_forall_ne_some.mpr fun pg hpg => ?_
        exact absurd ((Table.gather_eq_nil (by decide)).mp hnil i pg hpg) (not_lt.mpr hi)
      · rfl
    · next hbatch =>
      obtain ⟨j, batch, hj⟩ := List.exists_cons_of_ne_nil hbatch
      have hmem : ∀ k ∈ j :: batch, keep ≤ k ∧ k ∈ c.tree.keys := fun k hk =>
        Table.mem_gather (hj ▸ hk)
      have hless : (removePage c j).tree.above keep < c.tree.above keep := by
        have hks : (markClean c j).tree.keys = c.tree.keys := cleans_markClean.keys
        have hkey : j ∈ (markClean c j).tree.keys := hks ▸ (hmem j (by simp)).2
        have hlt := Table.above_erase_lt hkey (hmem j (by simp)).1
        rw [Table.above, Table.above, hks] at hlt
        exact hlt
      rw [hj, ih, removeBatch_get]
      · split
        · rfl
        · next hi => rw [if_neg fun hk => hi (hmem i hk).1]
      · rw [List.foldl_cons]
        have hle : (batch.foldl removePage (removePage c j)).tree.above keep ≤ _ :=
          above_removeBatch
        omega

theorem truncateLoop_disk : (truncateLoop keep fuel c).disk = c.disk := by
  induction fuel generalizing c with
  | zero => rfl
  | succ fuel ih =>
    unfold truncateLoop
    split
    · rfl
    · rw [ih, removeBatch_disk]

theorem page_below (hi : i < n / PAGE_SIZE) (ho : o < PAGE_SIZE) : i * PAGE_SIZE + o < n :=
  calc i * PAGE_SIZE + o < i * PAGE_SIZE + PAGE_SIZE := Nat.add_lt_add_left ho _
    _ = (i + 1) * PAGE_SIZE := (Nat.succ_mul ..).symm
    _ ≤ n := (Nat.le_div_iff_mul_le (by decide)).mp hi

/-- The page `i` after a truncation to `n`, which it begins below: `d` is what happens to its
data. -/
theorem fcacheTruncate_get_below (hi : i * PAGE_SIZE < n) :
    ∃ d : (Nat → UInt8) → Nat → UInt8,
      (∀ data, ∀ o < PAGE_SIZE, d data o = if i * PAGE_SIZE + o < n then data o else 0) ∧
      (fcacheTruncate c n).tree.get i =
        (c.tree.get i).map fun pg => { pg with data := d pg.data } := by
  have hlp (i : Nat) := truncateLoop_get (i := i)
    (Nat.lt_succ_of_le Table.above_le :
      c.tree.above ((n + PAGE_SIZE - 1) / PAGE_SIZE) < c.tree.entries.length + 1)
  have hkeep : ¬ (n + PAGE_SIZE - 1) / PAGE_SIZE ≤ i := by
    simp only [PAGE_SIZE] at hi ⊢
    omega
  have hwho (h : ∀ o < PAGE_SIZE, i * PAGE_SIZE + o < n) (data : Nat → UInt8) (o : Nat)
      (ho : o < PAGE_SIZE) : data o = if i * PAGE_SIZE + o < n then data o else 0 :=
    (if_pos (h o ho)).symm
  unfold fcacheTruncate
  dsimp only
  split
  · next htl =>
    have hlat : i < n / PAGE_SIZE := by
      simp only [PAGE_SIZE] at hi htl ⊢
      omega
    refine ⟨fun data => data, hwho fun o => page_below hlat, ?_⟩
    · rw [hlp, if_neg hkeep]
      exact (map_id' ..).symm
  · next htl =>
    by_cases hlast : n / PAGE_SIZE = i
    · refine ⟨fun data o => if o < n % PAGE_SIZE then data o else 0, fun data o ho => ?_, ?_⟩
      · refine if_congr ?_ rfl rfl
        simp only [PAGE_SIZE] at hi ho hlast ⊢
        omega
      · rw [Fcache.modify, hlast, Table.get_modify_self, hlp, if_neg hkeep]
    · have hlat : i < n / PAGE_SIZE := by
        simp only [PAGE_SIZE] at hi hlast ⊢
        omega
      refine ⟨fun data => data, hwho fun o => page_below hlat, ?_⟩
      · rw [Fcache.modify, Table.get_modify_ne hlast, hlp, if_neg hkeep]
        exact map_id'.symm

theorem fcacheTruncate_get_above (hi : n ≤ i * PAGE_SIZE) :
    (fcacheTruncate c n).tree.get i = none := by
  have hlp (i : Nat) := truncateLoop_get (i := i)
    (Nat.lt_succ_of_le Table.above_le :
      c.tree.above ((n + PAGE_SIZE - 1) / PAGE_SIZE) < c.tree.entries.length + 1)
  have hkeep : (n + PAGE_SIZE - 1) / PAGE_SIZE ≤ i := by
    simp only [PAGE_SIZE] at hi ⊢
    omega
  unfold fcacheTruncate
  dsimp only
  split
  · rw [hlp, if_pos hkeep]
  next htl =>
  have hne : n / PAGE_SIZE ≠ i := by
    simp only [PAGE_SIZE] at hi htl ⊢
    omega
  rw [Fcache.modify, Table.get_modify_ne hne, hlp, if_pos hkeep]

theorem fcacheTruncate_disk : (fcacheTruncate c n).disk = c.disk := by
  unfold fcacheTruncate
  dsimp only
  split
  · exact truncateLoop_disk
  · exact truncateLoop_disk

theorem Coherent.fcacheTruncate (h : Coherent node m F size c) (hn : n ≤ size) :
    Coherent node m (fun p => if p < n then F p else 0) n (fcacheTruncate c n) := by
  have hstd : Steady c (Fs.fcacheTruncate c n) := steady_fcacheTruncate
  refine ⟨fun {i pg'} hpg' => ?_, fun {p lba} hp hm hheld => ?_, fun {p} hm => ?_,
    fun {p} hp => if_neg (not_lt.mpr hp), fun hs => h.reach (hs.trans_le hn),
    h.lucky.suffix hstd.luck, hstd.counted h.counted⟩
  · by_cases hi : i * PAGE_SIZE < n
    · obtain ⟨d, hd, hget⟩ := fcacheTruncate_get_below (c := c) hi
      obtain ⟨pg, hpg, rfl⟩ := map_eq_some_iff.mp (hget.symm.trans hpg')
      have hok := h.page hpg
      refine ⟨fun hup o ho => ?_, hok.clean, hok.fresh⟩
      dsimp only
      rw [hd _ o ho, hok.data hup o ho]
    · rw [fcacheTruncate_get_above (not_lt.mp hi)] at hpg'
      cases hpg'
  · rw [fcacheTruncate_disk, if_pos hp]
    refine h.stored (hp.trans_le hn) hm fun hbit => hheld ?_
    have hpa : p / PAGE_SIZE * PAGE_SIZE < n := (Nat.div_mul_le_self _ _).trans_lt hp
    obtain ⟨d, -, hget⟩ := fcacheTruncate_get_below (c := c) hpa
    rw [Held, Fcache.bits] at hbit ⊢
    rw [hget]
    cases hpg : c.tree.get (p / PAGE_SIZE) with
    | none => simp [hpg] at hbit
    | some pg => simpa [hpg] using hbit
  · rw [h.hole hm, ite_self]

end Vex.Fs
