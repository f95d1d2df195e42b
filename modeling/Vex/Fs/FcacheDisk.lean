import Vex.Fs.FcacheLemmas

/-! What the loops of the file cache transfer, for a vnode whose sectors have a fixed place on
the volume and while every request succeeds: filling a page reads its sectors where the map
puts them, writing one stores its dirty sectors there and touches no other. -/

namespace Vex.Fs

open Lib Mm

/-- The block map of the vnode is the fixed injective map `m`: an extent places a run of sectors
one after the other, or is a hole. -/
structure SectorMap (node : Vnode) (m : Nat → Option Nat) : Prop where
  inj : ∀ {s s' lba}, m s = some lba → m s' = some lba → s = s'
  count : ∀ {s create e}, node.bmap s create = .ok e → 0 < e.count
  mapped : ∀ {s create e}, node.bmap s create = .ok e → e.mapped = true →
    ∀ j < e.count, m (s + j) = some (e.lba + j)
  hole : ∀ {s create e}, node.bmap s create = .ok e → e.mapped = false →
    ∀ j < e.count, m (s + j) = none
  total : ∀ {s lba}, m s = some lba → ∀ create, ∃ e, node.bmap s create = .ok e

/-- No answer still to come is a failure. -/
def Fcache.Lucky (c : Fcache) : Prop := ∀ x ∈ c.luck, x.ok = true

/-- The byte a file has at `o` of its sector `s`. -/
def sectorByte (m : Nat → Option Nat) (disk : Nat → Nat → UInt8) (s o : Nat) : UInt8 :=
  (m s).elim 0 fun lba => disk lba o

variable {node : Vnode} {m : Nat → Option Nat} {c c' : Fcache} {data : Nat → UInt8}
  {index size : Nat}

theorem Fcache.Lucky.suffix (h : c.Lucky) (hs : c'.luck <:+ c.luck) : c'.Lucky :=
  fun x hx => h x (hs.subset hx)

theorem Fcache.Lucky.spend (h : c.Lucky) : c.spend.Lucky := h.suffix (List.tail_suffix _)

theorem Fcache.Lucky.chance (h : c.Lucky) : c.chance.ok = true := by
  unfold Fcache.chance
  cases hl : c.luck with
  | nil => rfl
  | cons x xs => exact h x (by simp [hl])

/-! ## Requests that succeed -/

theorem Fcache.Lucky.askBmap (h : c.Lucky) (sector : Nat) (create : Bool) :
    askBmap node c sector create = (node.bmap sector create, c.spend) := by
  rw [Fs.askBmap, if_pos h.chance]

theorem Fcache.Lucky.blockRead (h : c.Lucky) (lba count pos : Nat) :
    blockRead node c lba count pos data =
      (.ok fun o =>
        if pos ≤ o ∧ o < pos + count * node.sectorSize then
          c.disk (lba + (o - pos) / node.sectorSize) ((o - pos) % node.sectorSize)
        else data o, c.spend) := by
  rw [Fs.blockRead, if_pos h.chance]

theorem Fcache.Lucky.blockWrite (h : c.Lucky) (lba count pos : Nat) :
    blockWrite node c lba count pos data =
      (.ok (), { c.spend with
        disk := fun l o =>
          if lba ≤ l ∧ l < lba + count then data (pos + (l - lba) * node.sectorSize + o)
          else c.disk l o }) := by
  rw [Fs.blockWrite, if_pos h.chance]

theorem askBmap_ok (h : askBmap node c sector create = (.ok e, c')) :
    node.bmap sector create = .ok e ∧ c' = c.spend := by
  unfold askBmap at h
  split at h
  · exact ⟨(Prod.mk.inj h).1, (Prod.mk.inj h).2.symm⟩
  · cases (Prod.mk.inj h).1

theorem blockWrite_ok (h : blockWrite node c lba count pos data = (.ok (), c')) :
    c'.disk = fun l o =>
      if lba ≤ l ∧ l < lba + count then data (pos + (l - lba) * node.sectorSize + o)
      else c.disk l o := by
  unfold blockWrite at h
  split at h
  · cases h
    rfl
  · cases h

/-! ## Filling a page -/

section
variable (hmap : SectorMap node m)
include hmap

/-- One extent of a fill: `count` more sectors hold what the disk has. -/
theorem fillLoop_extent (hss : 0 < node.sectorSize) (fuel : Nat) (hl : c.Lucky) (hi : i < num)
    (hrea : ∃ e, node.bmap (first + i) false = .ok e)
    (h0 : ∀ o, i * node.sectorSize ≤ o → data o = 0) :
    ∃ count data1 c1, 0 < count ∧
      fillLoop node first num (fuel + 1) i data c =
        fillLoop node first num fuel (i + count) data1 c1 ∧
      c1.Lucky ∧ c1.disk = c.disk ∧
      (∀ o < i * node.sectorSize, data1 o = data o) ∧
      (∀ o, i * node.sectorSize ≤ o → o < (i + count) * node.sectorSize →
        data1 o = sectorByte m c.disk (first + o / node.sectorSize) (o % node.sectorSize)) ∧
      ∀ o, (i + count) * node.sectorSize ≤ o → data1 o = 0 := by
  obtain ⟨e, he⟩ := hrea
  have hcnt := hmap.count he
  have hunf : fillLoop node first num (fuel + 1) i data c =
      if e.mapped then
        fillLoop node first num fuel (i + min e.count (num - i)) (fun o =>
          if i * node.sectorSize ≤ o ∧
              o < i * node.sectorSize + min e.count (num - i) * node.sectorSize then
            c.disk (e.lba + (o - i * node.sectorSize) / node.sectorSize)
              ((o - i * node.sectorSize) % node.sectorSize)
          else data o) c.spend.spend
      else fillLoop node first num fuel (i + min e.count (num - i)) data c.spend := by
    rw [fillLoop, if_neg (by omega), hl.askBmap, he]
    dsimp only
    rw [if_neg (by omega), hl.spend.blockRead]
    rfl
  rw [hunf]
  generalize hc : min e.count (num - i) = count
  -- the sector of a byte of the extent, counted from its first
  have hcoord : ∀ o, i * node.sectorSize ≤ o → o < (i + count) * node.sectorSize →
      o / node.sectorSize - i < e.count ∧
        first + i + (o / node.sectorSize - i) = first + o / node.sectorSize := by
    intro o h1 h2
    have h1 := (Nat.le_div_iff_mul_le hss).mpr h1
    have h2 := (Nat.div_lt_iff_lt_mul hss).mpr h2
    omega
  have hfar : ∀ o, (i + count) * node.sectorSize ≤ o → i * node.sectorSize ≤ o ∧
      ¬ o < i * node.sectorSize + count * node.sectorSize := by
    intro o ho
    rw [Nat.add_mul] at ho
    omega
  cases hmp : e.mapped with
  | true =>
    refine ⟨count, _, _, by omega, if_pos rfl, hl.spend.spend, rfl, fun o ho => ?_,
      fun o h1 h2 => ?_, fun o ho => ?_⟩
    · exact if_neg (by omega)
    · obtain ⟨hlt, hsec⟩ := hcoord o h1 h2
      have hplc := hmap.mapped he hmp _ hlt
      rw [hsec] at hplc
      rw [if_pos ⟨h1, by rw [← Nat.add_mul]; exact h2⟩, sectorByte, hplc, Option.elim_some,
        Nat.mul_comm i, Nat.sub_mul_div, Nat.sub_mul_mod (by rw [Nat.mul_comm]; exact h1)]
    · obtain ⟨h1, h2⟩ := hfar o ho
      rw [if_neg (fun h => h2 h.2)]
      exact h0 o h1
  | false =>
    refine ⟨count, _, _, by omega, if_neg (by simp), hl.spend, rfl, fun _ _ => rfl,
      fun o h1 h2 => ?_, fun o ho => h0 o (hfar o ho).1⟩
    obtain ⟨hlt, hsec⟩ := hcoord o h1 h2
    have hplc := hmap.hole he hmp _ hlt
    rw [hsec] at hplc
    rw [sectorByte, hplc, Option.elim_none, h0 o h1]

/-- The loop of a fill, from its `i`-th sector on: what is behind it stays, what is before it
comes from the disk. -/
theorem fillLoop_spec (hss : 0 < node.sectorSize) (hl : c.Lucky) (hfu : num ≤ i + fuel)
    (hrea : ∀ j < num, ∃ e, node.bmap (first + j) false = .ok e)
    (h0 : ∀ o, i * node.sectorSize ≤ o → data o = 0) :
    ∃ data' c', fillLoop node first num fuel i data c = (.ok data', c') ∧
      (∀ o < i * node.sectorSize, data' o = data o) ∧
      ∀ o < num * node.sectorSize, i * node.sectorSize ≤ o →
        data' o = sectorByte m c.disk (first + o / node.sectorSize) (o % node.sectorSize) := by
  have hdone : num ≤ i → ∀ o < num * node.sectorSize, ¬ i * node.sectorSize ≤ o := by
    intro h o ho
    have := Nat.mul_le_mul_right node.sectorSize h
    omega
  induction fuel generalizing i data c with
  | zero => exact ⟨data, c, rfl, fun _ _ => rfl, fun o ho hi => absurd hi (hdone hfu o ho)⟩
  | succ fuel ih =>
    by_cases hi : num ≤ i
    · refine ⟨data, c, ?_, fun _ _ => rfl, fun o ho h => absurd h (hdone hi o ho)⟩
      rw [fillLoop, if_pos hi]
    obtain ⟨count, data1, c1, hpos, hst, hl1, hdk, hbehind, hhere, hzero1⟩ :=
      fillLoop_extent hmap hss fuel hl (not_le.mp hi) (hrea i (not_le.mp hi)) h0
    obtain ⟨data', c', hrun, hbehind', hbef⟩ := ih hl1 (by omega) hzero1 (by
      intro h o ho
      have := Nat.mul_le_mul_right node.sectorSize h
      omega)
    refine ⟨data', c', hst.trans hrun, fun o ho => ?_, fun o ho h => ?_⟩
    · rw [hbehind' o (by rw [Nat.add_mul]; omega), hbehind o ho]
    by_cases hin : o < (i + count) * node.sectorSize
    · rw [hbehind' o hin, hhere o h hin]
    · rw [hbef o ho (not_lt.mp hin), hdk]

/-! ## Allocating sectors -/

theorem allocateLoop_mapped (hfu : last ≤ sector + fuel)
    (h : allocateLoop node last fuel sector c = (.ok (), c')) :
    ∀ s, sector ≤ s → s < last → ∃ lba, m s = some lba := by
  induction fuel generalizing sector c with
  | zero => exact fun s h1 h2 => by omega
  | succ fuel ih =>
    unfold allocateLoop at h
    split at h
    · exact fun s h1 h2 => by omega
    split at h
    · cases h
    next e c1 hbm =>
    split at h
    · cases h
    next hext =>
    simp only [Bool.or_eq_true, decide_eq_true_eq, Bool.not_eq_eq_eq_not, Bool.not_true,
      not_or, Bool.not_eq_false] at hext
    have he := (askBmap_ok hbm).1
    intro s h1 h2
    by_cases hs : s < sector + e.count
    · have := hmap.mapped he hext.2 (s - sector) (by omega)
      rw [Nat.add_sub_cancel' h1] at this
      exact ⟨_, this⟩
    · exact ih (by omega) h s (by omega) h2

theorem allocateLoop_ok (hl : c.Lucky)
    (hmp : ∀ s, sector ≤ s → s < last → ∃ lba, m s = some lba) :
    ∃ c', allocateLoop node last fuel sector c = (.ok (), c') := by
  induction fuel generalizing sector c with
  | zero => exact ⟨c, rfl⟩
  | succ fuel ih =>
    by_cases hdone : last ≤ sector
    · exact ⟨c, by rw [allocateLoop, if_pos hdone]⟩
    obtain ⟨lba, hlba⟩ := hmp sector le_rfl (not_le.mp hdone)
    obtain ⟨e, he⟩ := hmap.total hlba true
    have hcnt := hmap.count he
    have hext : e.mapped = true := by
      by_contra hhole
      have := hmap.hole he (by simpa using hhole) 0 hcnt
      rw [Nat.add_zero, hlba] at this
      cases this
    rw [allocateLoop, if_neg hdone, hl.askBmap, he]
    dsimp only
    rw [if_neg (by simp [hext]; omega)]
    exact ih hl.spend fun s h1 h2 => hmp s (by omega) h2

end

/-! ## Writing sectors -/

/-- Where the sectors `[sector, sector + count)` of a file are on disk, the page bytes from `pos`
on, and nothing else changed. -/
def RunWritten (node : Vnode) (m : Nat → Option Nat) (data : Nat → UInt8)
    (sector count pos : Nat) (disk disk' : Nat → Nat → UInt8) : Prop :=
  ∀ s lba o, m s = some lba → o < node.sectorSize →
    disk' lba o =
      if sector ≤ s ∧ s < sector + count then data (pos + (s - sector) * node.sectorSize + o)
      else disk lba o

theorem runWritten_blockWrite (hmap : SectorMap node m)
    (hplc : ∀ j < count, m (sector + j) = some (lba + j)) (disk : Nat → Nat → UInt8) :
    RunWritten node m data sector count pos disk fun l o =>
      if lba ≤ l ∧ l < lba + count then data (pos + (l - lba) * node.sectorSize + o)
      else disk l o := by
  intro s l o hs ho
  dsimp only
  by_cases hin : sector ≤ s ∧ s < sector + count
  · have hl := hplc (s - sector) (by omega)
    rw [Nat.add_sub_cancel' hin.1, hs, Option.some.injEq] at hl
    rw [if_pos hin, if_pos (by omega)]
    congr 4
    omega
  · rw [if_neg hin, if_neg]
    intro hl
    have hs' := hplc (l - lba) (by omega)
    rw [Nat.add_sub_cancel' hl.1] at hs'
    have := hmap.inj hs hs'
    omega

theorem RunWritten.nil : RunWritten node m data sector 0 pos disk disk := by
  intro s lba o _ _
  rw [if_neg (by omega)]

theorem RunWritten.append (h1 : RunWritten node m data sector n pos disk disk1)
    (h2 : RunWritten node m data (sector + n) k (pos + n * node.sectorSize) disk1 disk2)
    (hcnt : n + k = count) : RunWritten node m data sector count pos disk disk2 := by
  intro s lba o hs ho
  rw [h2 s lba o hs ho, h1 s lba o hs ho]
  by_cases hlow : s < sector + n
  · rw [if_neg (by omega)]
    exact if_congr (by omega) rfl rfl
  rw [if_neg (c := sector ≤ s ∧ s < sector + n) (by omega)]
  by_cases hhi : s < sector + count
  · rw [if_pos (by omega), if_pos (by omega)]
    congr 1
    have : (s - sector) = n + (s - (sector + n)) := by omega
    rw [this, Nat.add_mul]
    omega
  · rw [if_neg (by omega), if_neg (by omega)]

/-- Sectors without a place on disk need no write. -/
theorem RunWritten.hole (h : ∀ j < count, m (sector + j) = none) :
    RunWritten node m data sector count pos disk disk := by
  intro s lba o hs _
  rw [if_neg]
  intro hin
  have := h (s - sector) (by omega)
  rw [Nat.add_sub_cancel' hin.1, hs] at this
  cases this

theorem writeRun_written (hmap : SectorMap node m)
    (h : writeRun node data fuel sector count pos c = (.ok (), c')) (hfu : count ≤ fuel) :
    RunWritten node m data sector count pos c.disk c'.disk := by
  induction fuel generalizing sector count pos c with
  | zero =>
    obtain rfl : count = 0 := by omega
    cases h
    exact .nil
  | succ fuel ih =>
    unfold writeRun at h
    split at h
    · next hdone =>
      subst hdone
      cases h
      exact .nil
    split at h
    · cases h
    next e c1 hbm =>
    obtain ⟨he, rfl⟩ := askBmap_ok hbm
    split at h
    · cases h
    next hne =>
    dsimp only at h
    split at h
    · next hmp =>
      split at h
      · cases h
      next c2 hwr =>
      have hdk := blockWrite_ok hwr
      refine RunWritten.append ?_ (ih h (by omega)) (by omega)
      rw [hdk]
      exact runWritten_blockWrite hmap
        (fun j hj => hmap.mapped he hmp j (by omega)) c.disk
    · next hhole =>
      have hrs := ih h (by omega)
      refine RunWritten.append (.hole fun j hj => ?_) hrs (by omega)
      exact hmap.hole he (by simpa using hhole) j (by omega)

theorem runLength_spec (hle : i + run ≤ num) (fuel : Nat)
    (hdir : ∀ j < run, dirty.getLsbD (i + j) = true) :
    run ≤ runLength dirty num i fuel run ∧ i + runLength dirty num i fuel run ≤ num ∧
      ∀ j < runLength dirty num i fuel run, dirty.getLsbD (i + j) = true := by
  induction fuel generalizing run with
  | zero => exact ⟨le_rfl, hle, hdir⟩
  | succ fuel ih =>
    unfold runLength
    split
    · next hmr =>
      simp only [Bool.and_eq_true, decide_eq_true_eq] at hmr
      have hdirty' : ∀ j < run + 1, dirty.getLsbD (i + j) = true := by
        intro j hj
        rcases Nat.lt_succ_iff_lt_or_eq.mp hj with hj | rfl
        · exact hdir j hj
        · exact hmr.2
      have := ih (by omega) hdirty'
      exact ⟨by omega, this.2⟩
    · exact ⟨le_rfl, hle, hdir⟩

theorem runLength_dirty (hi : i < num) (hdir : dirty.getLsbD i = true) :
    1 ≤ runLength dirty num i num 1 ∧ i + runLength dirty num i num 1 ≤ num ∧
      ∀ j < runLength dirty num i num 1, dirty.getLsbD (i + j) = true := by
  refine runLength_spec hi num fun j hj => ?_
  obtain rfl : j = 0 := by omega
  exact hdir

/-- The dirty ones among the sectors `[first + i, first + num)` of a page are on disk, and nothing
else changed. -/
def PageWritten (node : Vnode) (m : Nat → Option Nat) (data : Nat → UInt8) (dirty : BitVec 8)
    (first num i : Nat) (disk disk' : Nat → Nat → UInt8) : Prop :=
  ∀ s lba o, m s = some lba → o < node.sectorSize →
    disk' lba o =
      if first + i ≤ s ∧ s < first + num ∧ dirty.getLsbD (s - first) then
        data ((s - first) * node.sectorSize + o)
      else disk lba o

theorem PageWritten.done (h : num ≤ i) : PageWritten node m data dirty first num i disk disk := by
  intro s lba o _ _
  rw [if_neg (by omega)]

theorem PageWritten.skip (hcln : dirty.getLsbD i = false)
    (h : PageWritten node m data dirty first num (i + 1) disk disk') :
    PageWritten node m data dirty first num i disk disk' := by
  intro s lba o hs ho
  rw [h s lba o hs ho]
  by_cases heq : s = first + i
  · have hbit : dirty.getLsbD (s - first) = false := by
      rw [heq, Nat.add_sub_cancel_left, hcln]
    simp [hbit]
  · exact if_congr (and_congr_left fun _ => by omega) rfl rfl

theorem PageWritten.run {run : Nat} (hle : i + run ≤ num)
    (hdir : ∀ j < run, dirty.getLsbD (i + j) = true)
    (h1 : RunWritten node m data (first + i) run (i * node.sectorSize) disk disk1)
    (h2 : PageWritten node m data dirty first num (i + run) disk1 disk') :
    PageWritten node m data dirty first num i disk disk' := by
  intro s lba o hs ho
  rw [h2 s lba o hs ho, h1 s lba o hs ho]
  by_cases hin : first + i ≤ s ∧ s < first + i + run
  · have hbit := hdir (s - (first + i)) (by omega)
    have hpos : i + (s - (first + i)) = s - first := by omega
    rw [hpos] at hbit
    rw [if_neg (by omega), if_pos hin, if_pos ⟨hin.1, by omega, hbit⟩, ← Nat.add_mul, hpos]
  · rw [if_neg hin]
    exact if_congr (and_congr_left fun _ => by omega) rfl rfl

theorem writePageLoop_written (hmap : SectorMap node m) {i : Nat}
    (h : writePageLoop node data dirty first num fuel i c = (.ok (), c')) (hfu : num ≤ i + fuel) :
    PageWritten node m data dirty first num i c.disk c'.disk := by
  induction fuel generalizing i c with
  | zero =>
    cases h
    exact .done hfu
  | succ fuel ih =>
    unfold writePageLoop at h
    split at h
    · next hdone =>
      cases h
      exact .done hdone
    split at h
    · next hcln => exact (ih h (by omega)).skip (by simpa using hcln)
    next hmr hdir =>
    obtain ⟨hpos, hle, hall⟩ := runLength_dirty (not_le.mp hmr) (by simpa using hdir)
    dsimp only at h
    split at h
    · cases h
    · next hrun =>
      exact .run hle hall (writeRun_written hmap hrun le_rfl) (ih h (by omega))

/-! ## Writing succeeds -/

/-- The block map answers for the sector. -/
def Answers (node : Vnode) (sector : Nat) : Prop :=
  ∃ e, node.bmap sector false = .ok e ∧ 0 < e.count

theorem writeRun_ok (hl : c.Lucky) (hrea : ∀ j < count, Answers node (sector + j)) :
    ∃ c', writeRun node data fuel sector count pos c = (.ok (), c') := by
  induction fuel generalizing sector count pos c with
  | zero => exact ⟨c, rfl⟩
  | succ fuel ih =>
    by_cases hdone : count = 0
    · exact ⟨c, by rw [writeRun, if_pos hdone]⟩
    obtain ⟨e, he, hcnt⟩ := hrea 0 (by omega)
    have hrs : ∀ j < count - min e.count count,
        Answers node (sector + min e.count count + j) := by
      intro j hj
      rw [Nat.add_assoc]
      exact hrea _ (by omega)
    rw [Nat.add_zero] at he
    rw [writeRun, if_neg hdone, hl.askBmap, he]
    dsimp only
    rw [if_neg (by omega)]
    split
    · rw [hl.spend.blockWrite]
      exact ih (by exact hl.spend.spend) hrs
    · exact ih hl.spend hrs

theorem writePageLoop_ok (hl : c.Lucky) (hrea : ∀ j < num, Answers node (first + j)) :
    ∃ c', writePageLoop node data dirty first num fuel i c = (.ok (), c') := by
  induction fuel generalizing i c with
  | zero => exact ⟨c, rfl⟩
  | succ fuel ih =>
    unfold writePageLoop
    split
    · exact ⟨c, rfl⟩
    split
    · exact ih hl
    next hmr hdir =>
    obtain ⟨hpos, hle, hall⟩ := runLength_dirty (not_le.mp hmr) (by simpa using hdir)
    dsimp only
    generalize runLength dirty num i num 1 = run at hpos hle hall ⊢
    obtain ⟨c1, hrun⟩ : ∃ c1, writeRun node data run (first + i) run (i * node.sectorSize) c =
        (.ok (), c1) := by
      refine writeRun_ok hl fun j hj => ?_
      rw [Nat.add_assoc]
      exact hrea _ (by omega)
    rw [hrun]
    exact ih (hl.suffix (stored_writeRun hrun).luck)

/-- Every sector of the file below its end has an answer of the block map. -/
def Reachable (node : Vnode) (size : Nat) : Prop :=
  ∀ index k, k < numSectors node index size → Answers node (firstSector node index + k)

theorem writebackLocked_ok (hl : c.Lucky) (hrea : Reachable node size) :
    ∃ c', writebackLocked node c size = (.ok (), c') := by
  have hpa : ∀ c index, Fcache.Lucky c →
      ∃ c', writebackPage node size (.ok (), c) index = (.ok (), c') ∧ c'.Lucky := by
    intro c index hl
    unfold writebackPage
    split
    · exact ⟨c, rfl, hl⟩
    next pg hpg =>
    split
    · exact ⟨c, rfl, hl⟩
    obtain ⟨c1, hwr⟩ : ∃ c1, writePage node c pg index size = (.ok (), c1) :=
      writePageLoop_ok hl fun k hk => hrea index k hk
    refine ⟨markClean c1 index, by rw [hwr], hl.suffix ?_⟩
    exact steady_markClean.luck.trans (stored_writePage hwr).luck
  obtain ⟨c', hrun, -⟩ := writebackLocked_rule hpa hl
  exact ⟨c', hrun⟩

end Vex.Fs
