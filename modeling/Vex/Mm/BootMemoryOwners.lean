import Mathlib.Data.List.Pairwise
import Vex.Mm.BootMemory

/-! Every usable page but the first is owned once after boot. Each initializer is described by the
pages, by their numbers, that it takes of one entry; the loops add these up. -/

namespace Vex.Mm.BootMemory

open Libk MemmapEntry
open Kmalloc (SIZE_RANGE alignCeil pageCount)

/-! ## Entries by page numbers -/

/-- The first page of an entry that may be used. -/
def MemmapEntry.firstPage (e : MemmapEntry) : Nat := max (e.base / PAGE_SIZE) 1

/-- The page after the last one. -/
def MemmapEntry.endPage (e : MemmapEntry) : Nat := (e.base + e.length) / PAGE_SIZE

/-- A page of an entry that may be used. -/
def MemmapEntry.Has (e : MemmapEntry) (page : Nat) : Prop :=
  e.type = LIMINE_MEMMAP_USABLE ∧ e.firstPage ≤ page ∧ page < e.endPage

/-- The page after the last one of the DMA zone. -/
abbrev DMA_PAGES : Nat := 4096

variable {e : MemmapEntry} {entries : List MemmapEntry} {p p' : Pdma} {page n : Nat}

theorem firstPage_pos (e : MemmapEntry) : 0 < e.firstPage := by
  rw [firstPage]
  omega

namespace MemmapEntry.Pages

section
variable (h : e.Pages)
include h

theorem firstPage_le : e.firstPage ≤ e.endPage := by
  obtain ⟨h1, h2, h3, -⟩ := h
  simp only [firstPage, endPage, PAGE_SIZE] at *
  omega

theorem endPage_lt : e.endPage * PAGE_SIZE < SIZE_RANGE := by
  have := h.range
  simp only [endPage, PAGE_SIZE] at *
  omega

theorem mem_iff : (e.base ≤ page * PAGE_SIZE ∧ page * PAGE_SIZE < e.base + e.length) ∧
    page ≠ 0 ↔ e.firstPage ≤ page ∧ page < e.endPage := by
  obtain ⟨h1, h2, h3, -⟩ := h
  simp only [firstPage, endPage, PAGE_SIZE] at *
  omega

theorem alignCeil_base : alignCeil e.base PAGE_SIZE = e.base := by
  obtain ⟨-, h2, -, h4⟩ := h
  simp only [alignCeil, PAGE_SIZE, SIZE_RANGE] at *
  omega

theorem skipPageZero_eq :
    skipPageZero (alignCeil e.base PAGE_SIZE) (pageAlign e.length) =
      (e.firstPage * PAGE_SIZE, (e.endPage - e.firstPage) * PAGE_SIZE) := by
  have hbs := h.alignCeil_base
  obtain ⟨h1, h2, h3, h4⟩ := h
  have hlen : pageAlign e.length = e.length := pageAlign_of_offset_eq_zero h3
  rw [skipPageZero]
  split <;>
    simp only [firstPage, endPage, subSize, PAGE_SIZE, SIZE_RANGE, Prod.mk.injEq] at * <;> omega

theorem getMemmapInfo_eq :
    getMemmapInfo e =
      { start := e.firstPage * PAGE_SIZE
        endAddress := e.endPage * PAGE_SIZE - 1
        length := (e.endPage - e.firstPage) * PAGE_SIZE
        npages := e.endPage - e.firstPage } := by
  have hle := h.firstPage_le
  have hlt := h.endPage_lt
  have hpos := firstPage_pos e
  rw [getMemmapInfo, h.skipPageZero_eq, infoOf, MemmapInfo.mk.injEq]
  refine ⟨rfl, ?_, rfl, ?_⟩ <;>
    simp only [pageCount, alignCeil, subSize, PAGE_SIZE, SIZE_RANGE] at * <;> omega

theorem clip_eq (hlow : e.firstPage < DMA_PAGES) :
    (clip (getMemmapInfo e)).start = e.firstPage * PAGE_SIZE ∧
      (clip (getMemmapInfo e)).endAddress = min e.endPage DMA_PAGES * PAGE_SIZE - 1 ∧
      (clip (getMemmapInfo e)).length = (min e.endPage DMA_PAGES - e.firstPage) * PAGE_SIZE := by
  rw [h.getMemmapInfo_eq, clip]
  simp only [subSize, PAGE_SIZE, SIZE_RANGE, PDMA_APPROX_END, DMA_PAGES] at *
  split
  case isTrue => refine ⟨rfl, ?_, ?_⟩ <;> dsimp only <;> omega
  case isFalse => refine ⟨rfl, ?_, ?_⟩ <;> dsimp only <;> omega

theorem firstPage_lt_of_holds (hrm : (getMemmapInfo e).npages ≥ n)
    (hblw : ((getMemmapInfo e).start + n * PAGE_SIZE) % SIZE_RANGE ≤ PDMA_APPROX_END)
    (hn : n ≤ 1) : e.firstPage < DMA_PAGES := by
  have hle := h.firstPage_le
  have hlt := h.endPage_lt
  rw [h.getMemmapInfo_eq] at hrm hblw
  simp only [PAGE_SIZE, SIZE_RANGE, PDMA_APPROX_END, DMA_PAGES] at *
  omega

theorem start_lt_iff :
    (getMemmapInfo e).start < PDMA_APPROX_END ↔ e.firstPage < DMA_PAGES := by
  rw [h.getMemmapInfo_eq]
  simp only [PAGE_SIZE, PDMA_APPROX_END, DMA_PAGES]
  omega

end

end MemmapEntry.Pages

theorem WellFormed.eq_of_page (hw : WellFormed entries) (he : e ∈ entries) (he' : e' ∈ entries)
    (h : e.Has page) (h' : e'.Has page) : e = e' := by
  by_contra hne
  have hmem := ((hw.pages e he h.1).mem_iff.mpr h.2).1
  have hmem' := ((hw.pages e' he' h'.1).mem_iff.mpr h'.2).1
  have : Std.Symm fun e e' : MemmapEntry => e.type = LIMINE_MEMMAP_USABLE →
      e'.type = LIMINE_MEMMAP_USABLE → e.base + e.length ≤ e'.base ∨
        e'.base + e'.length ≤ e.base := ⟨fun _ _ h hu hu' => (h hu' hu).symm⟩
  have hdis := hw.disjoint.forall he he' hne h.1 h'.1
  omega

/-! ## The DMA allocator -/

/-- A loop over the entries that raises a number to the bound of each entry that counts. -/
theorem foldl_raises {f : Nat → MemmapEntry → Nat} {bound : MemmapEntry → Nat}
    {counts : MemmapEntry → Prop} (hle : ∀ n, ∀ e ∈ entries, n ≤ f n e)
    (hbnd : ∀ n, ∀ e ∈ entries, counts e → bound e ≤ f n e) :
    n ≤ entries.foldl f n ∧ ∀ e ∈ entries, counts e → bound e ≤ entries.foldl f n := by
  induction entries generalizing n with
  | nil => exact ⟨le_rfl, nofun⟩
  | cons e entries ih =>
    obtain ⟨hrs, hen⟩ := ih (n := f n e) (fun n e he => hle n e (.tail _ he))
      fun n e he => hbnd n e (.tail _ he)
    refine ⟨(hle n e (.head _)).trans hrs, fun e' he' hc => ?_⟩
    rcases List.mem_cons.mp he' with rfl | he'
    · exact (hbnd n _ (.head _) hc).trans hrs
    · exact hen e' he' hc

/-- One turn of the loop that finds how many pages the bitmap is for. -/
theorem coverEntry_spec (n : Nat) (hpgs : e.type = LIMINE_MEMMAP_USABLE → e.Pages) :
    n ≤ coverEntry n e ∧ (n ≤ DMA_PAGES → coverEntry n e ≤ DMA_PAGES) ∧
      (e.type = LIMINE_MEMMAP_USABLE ∧ e.firstPage < DMA_PAGES →
        min e.endPage DMA_PAGES ≤ coverEntry n e) := by
  rw [coverEntry]
  split
  case isTrue h =>
    have hp := hpgs h.1
    have hlow := hp.start_lt_iff.mp h.2
    rw [(hp.clip_eq hlow).2.1]
    simp only [PAGE_SIZE]
    refine ⟨?_, ?_, fun _ => ?_⟩ <;> omega
  case isFalse h =>
    refine ⟨le_rfl, id, fun ⟨hu, hlow⟩ => absurd ⟨hu, ?_⟩ h⟩
    exact (hpgs hu).start_lt_iff.mpr hlow

theorem foldl_coverEntry_le (hw : ∀ e ∈ entries, e.type = LIMINE_MEMMAP_USABLE → e.Pages) :
    entries.foldl coverEntry 0 ≤ DMA_PAGES :=
  List.foldlRecOn (motive := (· ≤ DMA_PAGES)) entries _ (Nat.zero_le _) fun n hn e he =>
    (coverEntry_spec n (hw e he)).2.1 hn

/-- The pages of an entry that become free pages of the DMA allocator. -/
def Pdma.Takes (p : Pdma) (e : MemmapEntry) (page : Nat) : Prop :=
  e.type = LIMINE_MEMMAP_USABLE ∧ e.firstPage ≤ page ∧ page < min e.endPage DMA_PAGES ∧
    (e.firstPage * PAGE_SIZE = p.bitmapPhys → e.firstPage ≠ page)

theorem addRegion_eq (hsz : p.bitmapSize = PAGE_SIZE) (hab : a < b) (hb : b ≤ DMA_PAGES) :
    addRegion p (a * PAGE_SIZE) ((b - a) * PAGE_SIZE) =
      some { p with bitmap := bitmapRangeSet p.bitmap a (b - 1) } := by
  have hpg : a * PAGE_SIZE / PAGE_SIZE = a := Nat.mul_div_cancel _ (by decide)
  have hlast : subSize ((a + pageCount ((b - a) * PAGE_SIZE)) % SIZE_RANGE) 1 = b - 1 := by
    simp only [subSize, pageCount, alignCeil, PAGE_SIZE, SIZE_RANGE, DMA_PAGES] at *
    omega
  have hrm : (b - 1) / BITMAP_CHUNK_BITS * 4 < p.bitmapSize := by
    simp only [BITMAP_CHUNK_BITS, PAGE_SIZE, DMA_PAGES] at *
    omega
  rw [addRegion, hpg, hlast, if_pos hrm]

/-- A length of no page, less one page, is all of memory. -/
theorem addRegion_overrun (hsz : p.bitmapSize = PAGE_SIZE) (ha : a ≤ DMA_PAGES) :
    addRegion p (a * PAGE_SIZE) (subSize 0 PAGE_SIZE) = none := by
  have hrm : ¬subSize ((a * PAGE_SIZE / PAGE_SIZE + pageCount (subSize 0 PAGE_SIZE)) %
      SIZE_RANGE) 1 / BITMAP_CHUNK_BITS * 4 < p.bitmapSize := by
    simp only [subSize, pageCount, alignCeil, BITMAP_CHUNK_BITS, PAGE_SIZE, SIZE_RANGE,
      DMA_PAGES] at *
    omega
  rw [addRegion, if_neg hrm]

/-- A change of the bits only. -/
structure SameStorage (p p' : Pdma) : Prop where
  bitmapPhys : p'.bitmapPhys = p.bitmapPhys
  bitmapSize : p'.bitmapSize = p.bitmapSize
  numpages : p'.numpages = p.numpages

/-- The bits of some pages have been set. -/
structure Sets (p p' : Pdma) (P : Nat → Prop) : Prop extends SameStorage p p' where
  isset : ∀ page, bitmapIsset p'.bitmap page = true ↔ bitmapIsset p.bitmap page = true ∨ P page

theorem Sets.refl (hP : ∀ page, ¬P page) : Sets p p P :=
  ⟨⟨rfl, rfl, rfl⟩, fun page => (or_iff_left (hP page)).symm⟩

theorem alignCeil_chunk (hn : n ≤ DMA_PAGES) :
    n ≤ alignCeil n BITMAP_CHUNK_BITS ∧ alignCeil n BITMAP_CHUNK_BITS ≤ DMA_PAGES := by
  simp only [alignCeil, BITMAP_CHUNK_BITS, SIZE_RANGE, DMA_PAGES] at *
  omega

theorem bitmapPages_eq (hpos : 0 < n) (hn : n ≤ DMA_PAGES) :
    pageCount (bitmapBytecount n) = 1 := by
  simp only [pageCount, bitmapBytecount, alignCeil, BITMAP_CHUNK_BITS, PAGE_SIZE, SIZE_RANGE,
    DMA_PAGES] at *
  omega

theorem bitmapPages_le (hn : n ≤ DMA_PAGES) : pageCount (bitmapBytecount n) ≤ 1 := by
  rcases Nat.eq_zero_or_pos n with rfl | hpos
  · decide
  · exact (bitmapPages_eq hpos hn).le

theorem subSize_one (hpos : 0 < n) (hn : n ≤ DMA_PAGES) : subSize n 1 = n - 1 := by
  simp only [subSize, SIZE_RANGE, DMA_PAGES] at *
  omega

theorem subSize_page (hpos : 0 < n) (hn : n ≤ DMA_PAGES) :
    subSize (n * PAGE_SIZE) PAGE_SIZE = (n - 1) * PAGE_SIZE := by
  simp only [subSize, PAGE_SIZE, SIZE_RANGE, DMA_PAGES] at *
  omega

theorem addRange_spec (hsz : p.bitmapSize = PAGE_SIZE) (hm : m ≤ DMA_PAGES)
    (h : (if (m - a) * PAGE_SIZE > 0 then addRegion p (a * PAGE_SIZE) ((m - a) * PAGE_SIZE)
      else some p) = some p') : Sets p p' fun page => a ≤ page ∧ page < m := by
  split at h
  case isTrue hpos =>
    have ham : a < m := by
      simp only [PAGE_SIZE] at hpos
      omega
    rw [addRegion_eq hsz ham hm] at h
    cases h
    refine ⟨⟨rfl, rfl, rfl⟩, fun page => ?_⟩
    rw [bitmapIsset_rangeSet (by omega)]
    split
    case isTrue hin => exact iff_of_true rfl (.inr (by omega))
    case isFalse hout => exact ⟨.inl, fun hor => hor.resolve_right (by omega)⟩
  case isFalse h0 =>
    cases h
    refine .refl fun page hpg => h0 (Nat.mul_pos ?_ (by decide))
    omega

theorem addEntry_spec (hsz : p.bitmapSize = PAGE_SIZE)
    (hpgs : e.type = LIMINE_MEMMAP_USABLE → e.Pages) (h : addEntry p e = some p') :
    Sets p p' (p.Takes e) := by
  rw [addEntry] at h
  split at h
  case isFalse hnot =>
    cases h
    exact .refl fun page ⟨hu, hle, hlt, _⟩ =>
      hnot ⟨hu, (hpgs hu).start_lt_iff.mpr (by omega)⟩
  rename_i hlow
  obtain ⟨hu, hlow⟩ := hlow
  have hp := hpgs hu
  have hlow := hp.start_lt_iff.mp hlow
  obtain ⟨hsta, -, hlen⟩ := hp.clip_eq hlow
  have hm : min e.endPage DMA_PAGES ≤ DMA_PAGES := min_le_right ..
  have htks : ∀ page, p.Takes e page ↔ e.firstPage ≤ page ∧ page < min e.endPage DMA_PAGES ∧
      (e.firstPage * PAGE_SIZE = p.bitmapPhys → e.firstPage ≠ page) :=
    fun page => and_iff_right hu
  generalize min e.endPage DMA_PAGES = m at *
  rcases eq_or_ne (e.firstPage * PAGE_SIZE) p.bitmapPhys with heq | hne
  · have hstart' : (e.firstPage * PAGE_SIZE + PAGE_SIZE) % SIZE_RANGE =
        (e.firstPage + 1) * PAGE_SIZE := by
      simp only [PAGE_SIZE, SIZE_RANGE, DMA_PAGES] at *
      omega
    simp only [withoutBitmap, hsta, hlen, if_pos heq, hsz, hstart'] at h
    rcases Nat.lt_or_ge e.firstPage m with hlt | hge
    · have hlength' : subSize ((m - e.firstPage) * PAGE_SIZE) PAGE_SIZE =
          (m - (e.firstPage + 1)) * PAGE_SIZE := by
        rw [subSize_page (by omega) (by omega), Nat.sub_sub]
      simp only [hlength'] at h
      obtain ⟨hsame, hset⟩ := addRange_spec hsz hm h
      refine ⟨hsame, fun page => (hset page).trans (or_congr_right ?_)⟩
      rw [htks]
      omega
    · -- the first page of memory alone, before the entry with the bitmap
      rw [Nat.sub_eq_zero_of_le hge, Nat.zero_mul, addRegion_overrun hsz hlow] at h
      cases h
  · simp only [withoutBitmap, hsta, hlen, if_neg hne] at h
    obtain ⟨hsame, hset⟩ := addRange_spec hsz hm h
    refine ⟨hsame, fun page => (hset page).trans (or_congr_right ?_)⟩
    rw [htks, and_iff_left fun heq => absurd heq hne]

theorem foldlM_addEntry (hw : ∀ e ∈ entries, e.type = LIMINE_MEMMAP_USABLE → e.Pages)
    (hsz : p.bitmapSize = PAGE_SIZE) (h : entries.foldlM addEntry p = some p') :
    Sets p p' fun page => ∃ e ∈ entries, p.Takes e page := by
  induction entries generalizing p with
  | nil =>
    cases h
    exact .refl fun page => by simp
  | cons e entries ih =>
    obtain ⟨p1, h1, h⟩ := Option.bind_eq_some_iff.mp h
    obtain ⟨hsame, hset⟩ := addEntry_spec hsz (hw e (.head _)) h1
    obtain ⟨hsm', hset'⟩ := ih (fun e he => hw e (.tail _ he)) (hsame.bitmapSize.trans hsz) h
    have htks : ∀ e page, p1.Takes e page ↔ p.Takes e page := by
      intro e page
      rw [Pdma.Takes, Pdma.Takes, hsame.bitmapPhys]
    refine ⟨⟨hsm'.bitmapPhys.trans hsame.bitmapPhys, hsm'.bitmapSize.trans hsame.bitmapSize,
      hsm'.numpages.trans hsame.numpages⟩, fun page => ?_⟩
    rw [hset', hset]
    simp [htks, or_assoc]

/-- The page of the bitmap is the first one of an entry, and all other pages of the DMA zone that
may be used are free. -/
structure Pdma.Owning (p : Pdma) (entries : List MemmapEntry) (first : Nat) : Prop where
  bitmapPhys : p.bitmapPhys = first * PAGE_SIZE
  bitmapSize : p.bitmapSize = PAGE_SIZE
  entry : ∃ e ∈ entries, e.type = LIMINE_MEMMAP_USABLE ∧ e.firstPage = first ∧ first < e.endPage
  first_lt : first < DMA_PAGES
  free : ∀ page, page < p.numpages ∧ bitmapIsset p.bitmap page = true ↔
    (∃ e ∈ entries, e.type = LIMINE_MEMMAP_USABLE ∧ e.firstPage ≤ page ∧ page < e.endPage) ∧
      page < DMA_PAGES ∧ page ≠ first

theorem WellFormed.exists_takes_iff (hw : WellFormed entries)
    (hph : p.bitmapPhys = first * PAGE_SIZE)
    (hfst : ∃ e ∈ entries, e.type = LIMINE_MEMMAP_USABLE ∧ e.firstPage = first ∧
      first < e.endPage) :
    (∃ e ∈ entries, p.Takes e page) ↔
      (∃ e ∈ entries, e.Has page) ∧ page < DMA_PAGES ∧ page ≠ first := by
  constructor
  · rintro ⟨e, he, hu, hle, hlt, hne⟩
    have hlt' := lt_min_iff.mp hlt
    refine ⟨⟨e, he, hu, hle, hlt'.1⟩, hlt'.2, ?_⟩
    rintro rfl
    obtain ⟨e', he', hu', hfst, hend⟩ := hfst
    obtain rfl := hw.eq_of_page he he' ⟨hu, hle, hlt'.1⟩ ⟨hu', hfst.le, hend⟩
    exact hne (by rw [hph, hfst]) hfst
  · rintro ⟨⟨e, he, hu, hle, hlt⟩, hdma, hne⟩
    refine ⟨e, he, hu, hle, lt_min hlt hdma, fun heq => ?_⟩
    have : e.firstPage = first := Nat.eq_of_mul_eq_mul_right (by decide) (heq.trans hph)
    omega

theorem initPdma_spec (hw : WellFormed entries) (h : initPdma entries memory = some p) :
    ∃ first, p.Owning entries first := by
  rw [initPdma] at h
  have hle := foldl_coverEntry_le hw.pages
  obtain ⟨-, hcover⟩ := foldl_raises (n := 0) (fun n e he => (coverEntry_spec n (hw.pages e he)).1)
    fun n e he => (coverEntry_spec n (hw.pages e he)).2.2
  obtain ⟨npages, hnpages⟩ : ∃ npages, entries.foldl coverEntry 0 = npages := ⟨_, rfl⟩
  rw [hnpages] at h hle hcover
  have hnum : npages ≤ alignCeil npages BITMAP_CHUNK_BITS ∧
      alignCeil npages BITMAP_CHUNK_BITS ≤ DMA_PAGES := alignCeil_chunk hle
  split at h
  case h_1 => cases h
  rename_i e hfd
  have he := List.mem_of_find?_eq_some hfd
  have hhd := List.find?_some hfd
  simp only [holdsBitmap, decide_eq_true_eq] at hhd
  obtain ⟨hu, hrm, hblw⟩ := hhd
  have hp := hw.pages e he hu
  have hfst := hp.firstPage_lt_of_holds hrm hblw (bitmapPages_le hnum.2)
  have hen := hp.firstPage_le
  have hpos := firstPage_pos e
  have hnpos : 0 < npages := by
    have := hcover e he ⟨hu, hfst⟩
    omega
  have hk := bitmapPages_eq (by omega) hnum.2
  rw [hp.getMemmapInfo_eq, hk] at h
  rw [hp.getMemmapInfo_eq] at hrm
  have hadd := addRegion_eq (p := ⟨memory, e.firstPage * PAGE_SIZE, 1 * PAGE_SIZE,
    alignCeil npages BITMAP_CHUNK_BITS⟩) (Nat.one_mul _) (Nat.lt_succ_self e.firstPage) hfst
  rw [Nat.succ_eq_add_one, Nat.add_sub_cancel_left] at hadd
  dsimp only at h
  rw [hadd] at h
  obtain ⟨hsame, hset⟩ := foldlM_addEntry hw.pages (Nat.one_mul _) h
  have hph : p.bitmapPhys = e.firstPage * PAGE_SIZE := hsame.bitmapPhys
  have hent : ∃ e' ∈ entries, e'.type = LIMINE_MEMMAP_USABLE ∧ e'.firstPage = e.firstPage ∧
      e.firstPage < e'.endPage := ⟨e, he, hu, rfl, by dsimp only at hrm; omega⟩
  refine ⟨e.firstPage, hph, hsame.bitmapSize.trans (Nat.one_mul _), hent, hfst,
    fun page => ?_⟩
  rw [hset, hsame.numpages]
  constructor
  · rintro ⟨hlt, hold | htks⟩
    · rw [bitmapIsset_rangeClear (Nat.zero_le _), subSize_one (by omega) hnum.2] at hold
      split at hold
      case isTrue => cases hold
      case isFalse hout => exact absurd ⟨Nat.zero_le _, Nat.le_sub_one_of_lt hlt⟩ hout
    · exact (hw.exists_takes_iff rfl hent).mp htks
  · rintro hfree
    obtain ⟨⟨e', he', hu', hle', hlt'⟩, hdma, -⟩ := id hfree
    have hcovered := hcover e' he' ⟨hu', hle'.trans_lt hdma⟩
    have hlt : page < alignCeil npages BITMAP_CHUNK_BITS :=
      (lt_min hlt' hdma).trans_le (hcovered.trans hnum.1)
    exact ⟨hlt, .inr ((hw.exists_takes_iff rfl hent).mpr hfree)⟩

/-! ## The frame table -/

theorem MemmapEntry.Pages.endAligned_eq (h : e.Pages) :
    e.endAligned = e.endPage * PAGE_SIZE := by
  rw [endAligned, Nat.mod_eq_of_lt h.range, pageAlign, endPage]

theorem MemmapEntry.Pages.storageStartIn_eq (h : e.Pages) :
    storageStartIn e = max e.firstPage DMA_PAGES * PAGE_SIZE := by
  have hbs := h.alignCeil_base
  obtain ⟨-, h2, -, -⟩ := h
  rw [storageStartIn, firstPage]
  simp only [PDMA_APPROX_END, PAGE_SIZE, DMA_PAGES] at *
  split <;> omega

theorem raiseEnd_spec (n : Nat) (e : MemmapEntry) :
    n ≤ raiseEnd n e ∧ (e.type = LIMINE_MEMMAP_USABLE → e.endAligned ≤ raiseEnd n e) := by
  rw [raiseEnd]
  split
  case isTrue h => exact ⟨h.2.le, fun _ => le_rfl⟩
  case isFalse h => exact ⟨le_rfl, fun hu => Nat.le_of_not_lt fun hlt => h ⟨hu, hlt⟩⟩

/-- The frame table is in an entry above the DMA zone, and has a frame for every page. -/
structure Pframes.Owning (f : Pframes) (entries : List MemmapEntry) (first count : Nat) : Prop where
  storageStart : f.storageStart = first * PAGE_SIZE
  storageLength : f.storageLength = count * PAGE_SIZE
  entry : ∃ e ∈ entries, e.type = LIMINE_MEMMAP_USABLE ∧ e.firstPage ≤ first ∧
    first + count ≤ e.endPage
  le_first : DMA_PAGES ≤ first
  frames : ∀ e ∈ entries, e.type = LIMINE_MEMMAP_USABLE → e.endPage ≤ f.numPframes

theorem initPframe_spec (hw : WellFormed entries) (h : initPframe entries = some f) :
    ∃ first count, f.Owning entries first count := by
  obtain ⟨e, hfd, rfl⟩ := Option.map_eq_some_iff.mp h
  have he := List.mem_of_find?_eq_some hfd
  have hhd := List.find?_some hfd
  simp only [holdsFrames, decide_eq_true_eq] at hhd
  obtain ⟨hu, habv, hrm⟩ := hhd
  have hp := hw.pages e he hu
  rw [hp.storageStartIn_eq, hp.endAligned_eq] at habv hrm
  refine ⟨max e.firstPage DMA_PAGES, _, hp.storageStartIn_eq, rfl, ⟨e, he, hu, le_max_left .., ?_⟩,
    le_max_right .., fun e' he' hu' => ?_⟩
  · rw [← Nat.sub_mul] at hrm
    have := Nat.le_of_mul_le_mul_right hrm (by decide)
    have := Nat.lt_of_mul_lt_mul_right habv
    omega
  · have hle := (foldl_raises (n := 0) (fun n e _ => (raiseEnd_spec n e).1)
      fun n e _ => (raiseEnd_spec n e).2).2 e' he' hu'
    rw [(hw.pages e' he' hu').endAligned_eq] at hle
    exact (Nat.le_div_iff_mul_le (by decide)).mpr hle

/-! ## The page allocator -/

/-- Pages have been put on the list. -/
structure Adds (s s' : Pslab) (P : Nat → Prop) : Prop where
  list : ∀ x, x ∈ s'.list ↔ x ∈ s.list ∨ ∃ n, P n ∧ x = n * PAGE_SIZE
  nodup : s.list.Nodup → (∀ n, P n → n * PAGE_SIZE ∉ s.list) → s'.list.Nodup
  numPframes : s'.frames.numPframes = s.frames.numPframes
  storageStart : s'.frames.storageStart = s.frames.storageStart
  storageLength : s'.frames.storageLength = s.frames.storageLength

variable {s s1 s' : Pslab} {P Q : Nat → Prop}

theorem Adds.refl (s : Pslab) (hP : ∀ n, ¬P n) : Adds s s P where
  list := fun _ => ⟨.inl, fun h => h.resolve_right fun ⟨n, hn, _⟩ => hP n hn⟩
  nodup := fun h _ => h
  numPframes := rfl
  storageStart := rfl
  storageLength := rfl

theorem Adds.trans (h1 : Adds s s1 P) (h2 : Adds s1 s' Q) (hdis : ∀ n, P n → ¬Q n) :
    Adds s s' fun n => P n ∨ Q n where
  list := fun x => by
    rw [h2.list, h1.list, or_assoc]
    simp only [or_and_right, exists_or]
  nodup := fun hs hnew => by
    refine h2.nodup (h1.nodup hs fun n hn => hnew n (.inl hn)) fun n hn hmem => ?_
    rcases (h1.list _).mp hmem with hold | ⟨m, hm, heq⟩
    · exact hnew n (.inr hn) hold
    · rw [Nat.eq_of_mul_eq_mul_right (by decide) heq] at hn
      exact hdis m hm hn
  numPframes := h2.numPframes.trans h1.numPframes
  storageStart := h2.storageStart.trans h1.storageStart
  storageLength := h2.storageLength.trans h1.storageLength

theorem Adds.congr (h : Adds s s' P) (hPQ : ∀ n, P n ↔ Q n) : Adds s s' Q := by
  obtain rfl : P = Q := funext fun n => propext (hPQ n)
  exact h

theorem addPages_spec (hnum : a + k + turns ≤ s.frames.numPframes) :
    ∃ s', addPages (a * PAGE_SIZE) turns (k * PAGE_SIZE) s = some s' ∧
      Adds s s' fun n => a + k ≤ n ∧ n < a + k + turns := by
  induction turns generalizing k s with
  | zero => exact ⟨s, rfl, .refl s fun n hn => by omega⟩
  | succ turns ih =>
    have haddr : a * PAGE_SIZE + k * PAGE_SIZE = (a + k) * PAGE_SIZE := (Nat.add_mul ..).symm
    have hpg : (a + k) * PAGE_SIZE / PAGE_SIZE = a + k := Nat.mul_div_cancel _ (by decide)
    have hfrm : pframeOf s.frames ((a + k) * PAGE_SIZE) = some (a + k) := by
      rw [pframeOf, hpg, if_pos (by omega)]
    have hnx : k * PAGE_SIZE + PAGE_SIZE = (k + 1) * PAGE_SIZE := (Nat.succ_mul ..).symm
    let s1 : Pslab :=
      { list := (a + k) * PAGE_SIZE :: s.list
        numpages := s.numpages + 1
        frames := { s.frames with pslab := Function.update s.frames.pslab (a + k) true } }
    have hone : Adds s s1 fun n => n = a + k :=
      { list := fun x => by simp [s1, or_comm]
        nodup := fun hs hnew => List.nodup_cons.mpr ⟨hnew _ rfl, hs⟩
        numPframes := rfl
        storageStart := rfl
        storageLength := rfl }
    obtain ⟨s', hs', had⟩ := ih (s := s1)
      (show a + (k + 1) + turns ≤ s.frames.numPframes by omega)
    refine ⟨s', ?_, (hone.trans had fun n hn => by omega).congr fun n => by omega⟩
    rw [addPages, haddr, hfrm, Option.bind_some, hnx, hs']

theorem pslabAddRegion_spec (hab : a ≤ b) (hnum : b ≤ s.frames.numPframes) :
    ∃ s', pslabAddRegion s (a * PAGE_SIZE) ((b - a) * PAGE_SIZE) = some s' ∧
      Adds s s' fun n => a ≤ n ∧ n < b := by
  have htrn : ((b - a) * PAGE_SIZE + (PAGE_SIZE - 1)) / PAGE_SIZE = b - a := by
    simp only [PAGE_SIZE]
    omega
  obtain ⟨s', hs', had⟩ := addPages_spec
    (show a + 0 + (b - a) ≤ s.frames.numPframes by omega)
  refine ⟨s', ?_, had.congr fun n => by omega⟩
  rw [pslabAddRegion, htrn, ← Nat.zero_mul PAGE_SIZE, hs']

theorem addRest_spec (hnum : b ≤ s.frames.numPframes) :
    ∃ s', (if a * PAGE_SIZE < b * PAGE_SIZE then
        pslabAddRegion s (a * PAGE_SIZE) (b * PAGE_SIZE - a * PAGE_SIZE) else some s) = some s' ∧
      Adds s s' fun n => a ≤ n ∧ n < b := by
  split
  case isTrue hlt =>
    rw [← Nat.sub_mul]
    exact pslabAddRegion_spec (Nat.lt_of_mul_lt_mul_right hlt).le hnum
  case isFalse hle =>
    have : b ≤ a := Nat.le_of_mul_le_mul_right (Nat.le_of_not_lt hle) (by decide)
    exact ⟨s, rfl, .refl s fun n hn => by omega⟩

/-- The frame table is where it is. -/
structure Pslab.Reserves (s : Pslab) (first count : Nat) : Prop where
  storageStart : s.frames.storageStart = first * PAGE_SIZE
  storageLength : s.frames.storageLength = count * PAGE_SIZE

theorem pslabAddUsable_spec (hab : a < b) (hnum : b ≤ s.frames.numPframes)
    (hs : s.Reserves first count) (hb : b * PAGE_SIZE < SIZE_RANGE)
    (hcnt : (first + count) * PAGE_SIZE < SIZE_RANGE) :
    ∃ s', pslabAddUsable s (a * PAGE_SIZE) ((b - a) * PAGE_SIZE) = some s' ∧
      Adds s s' fun n => (a ≤ n ∧ n < b) ∧ ¬(first ≤ n ∧ n < first + count) := by
  have hend : (a * PAGE_SIZE + (b - a) * PAGE_SIZE) % SIZE_RANGE = b * PAGE_SIZE := by
    rw [← Nat.add_mul, Nat.add_sub_of_le hab.le, Nat.mod_eq_of_lt hb]
  have hreserved : (first * PAGE_SIZE + count * PAGE_SIZE) % SIZE_RANGE =
      (first + count) * PAGE_SIZE := by
    rw [← Nat.add_mul, Nat.mod_eq_of_lt hcnt]
  have hle : ∀ x y : Nat, x * PAGE_SIZE ≤ y * PAGE_SIZE ↔ x ≤ y :=
    fun x y => Nat.mul_le_mul_right_iff (by decide)
  simp only [pslabAddUsable, hs.storageStart, hs.storageLength, hend, hreserved]
  split
  case isTrue hapt =>
    simp only [hle] at hapt
    obtain ⟨s', hs', had⟩ := pslabAddRegion_spec hab.le hnum
    exact ⟨s', hs', had.congr fun n => by omega⟩
  rename_i hmeet
  simp only [hle] at hmeet
  obtain ⟨s1, hs1, had1⟩ := addRest_spec (s := s) (a := a) (b := first) (by omega)
  obtain ⟨s2, hs2, hadds2⟩ := addRest_spec (a := first + count) (b := b)
    (by rw [had1.numPframes]; exact hnum)
  refine ⟨s2, ?_, (had1.trans hadds2 fun n hn => by omega).congr fun n => by omega⟩
  simp only [hs1, Option.bind_some, hs2]

/-- The pages of an entry that go to the list. -/
def MemmapEntry.Gives (e : MemmapEntry) (first count n : Nat) : Prop :=
  e.type = LIMINE_MEMMAP_USABLE ∧ (max e.firstPage DMA_PAGES ≤ n ∧ n < e.endPage) ∧
    ¬(first ≤ n ∧ n < first + count)

theorem MemmapEntry.Pages.aboveDma_eq (h : e.Pages) (hhi : DMA_PAGES ≤ e.endPage) :
    aboveDma (e.firstPage * PAGE_SIZE, (e.endPage - e.firstPage) * PAGE_SIZE) =
      (max e.firstPage DMA_PAGES * PAGE_SIZE,
        (e.endPage - max e.firstPage DMA_PAGES) * PAGE_SIZE) := by
  have hlt := h.endPage_lt
  rw [aboveDma]
  simp only [subSize, PAGE_SIZE, SIZE_RANGE, PDMA_APPROX_END, DMA_PAGES] at *
  split <;> rw [Prod.mk.injEq] <;> omega

theorem pslabAddEntry_spec (hpgs : e.type = LIMINE_MEMMAP_USABLE → e.Pages)
    (hnum : e.type = LIMINE_MEMMAP_USABLE → e.endPage ≤ s.frames.numPframes)
    (hs : s.Reserves first count) (hcnt : (first + count) * PAGE_SIZE < SIZE_RANGE) :
    ∃ s', pslabAddEntry s e = some s' ∧ Adds s s' (e.Gives first count) := by
  rw [pslabAddEntry]
  split
  case isTrue hhi =>
    obtain ⟨hu, hhi⟩ := hhi
    have hp := hpgs hu
    have hle := hp.firstPage_le
    have hlt := hp.endPage_lt
    simp only [hp.skipPageZero_eq, ← Nat.add_mul, Nat.add_sub_of_le hle,
      Nat.mod_eq_of_lt hlt] at hhi ⊢
    have hdma : DMA_PAGES ≤ e.endPage := by
      simp only [PDMA_APPROX_END, PAGE_SIZE, DMA_PAGES] at *
      omega
    simp only [hp.aboveDma_eq hdma]
    split
    case isTrue hpos =>
      have hab : max e.firstPage DMA_PAGES < e.endPage :=
        Nat.lt_of_sub_pos (Nat.pos_of_mul_pos_right hpos)
      obtain ⟨s', hs', had⟩ := pslabAddUsable_spec hab (hnum hu) hs hlt hcnt
      exact ⟨s', hs', had.congr fun n => (and_iff_right hu).symm⟩
    rename_i h0
    refine ⟨s, rfl, .refl s ?_⟩
    rintro n ⟨-, ⟨hle', hlt'⟩, -⟩
    have : 0 < (e.endPage - max e.firstPage DMA_PAGES) * PAGE_SIZE :=
      Nat.mul_pos (by omega) (by decide)
    exact h0 this
  rename_i hlow
  refine ⟨s, rfl, .refl s ?_⟩
  rintro n ⟨hu, ⟨hle', hlt'⟩, -⟩
  refine hlow ⟨hu, ?_⟩
  have hp := hpgs hu
  have hlt := hp.endPage_lt
  simp only [hp.skipPageZero_eq, ← Nat.add_mul, Nat.add_sub_of_le hp.firstPage_le,
    Nat.mod_eq_of_lt hlt]
  simp only [PDMA_APPROX_END, PAGE_SIZE, DMA_PAGES] at *
  omega

theorem foldlM_pslabAddEntry (hw : WellFormed entries)
    (hnum : ∀ e ∈ entries, e.type = LIMINE_MEMMAP_USABLE → e.endPage ≤ s.frames.numPframes)
    (hs : s.Reserves first count) (hcnt : (first + count) * PAGE_SIZE < SIZE_RANGE) :
    ∃ s', entries.foldlM pslabAddEntry s = some s' ∧
      Adds s s' fun n => ∃ e ∈ entries, e.Gives first count n := by
  induction entries generalizing s with
  | nil => exact ⟨s, rfl, .refl s fun n => by simp⟩
  | cons e entries ih =>
    obtain ⟨s1, hs1, had1⟩ := pslabAddEntry_spec (hw.pages e (.head _)) (hnum e (.head _)) hs
      hcnt
    have hw' : WellFormed entries :=
      ⟨fun e he => hw.pages e (.tail _ he), (List.pairwise_cons.mp hw.disjoint).2⟩
    obtain ⟨s2, hs2, hadds2⟩ := ih hw'
      (fun e' he' hu => by rw [had1.numPframes]; exact hnum e' (.tail _ he') hu)
      ⟨had1.storageStart.trans hs.storageStart, had1.storageLength.trans hs.storageLength⟩
    refine ⟨s2, ?_, (had1.trans hadds2 ?_).congr fun n => by simp⟩
    · rw [List.foldlM_cons, hs1]
      exact hs2
    rintro n ⟨hu, ⟨hle, hlt⟩, -⟩ ⟨e', he', hu', ⟨hle', hlt'⟩, -⟩
    -- no later entry has the page
    have hmem := ((hw.pages e (.head _) hu).mem_iff.mpr ⟨(le_max_left ..).trans hle, hlt⟩).1
    have hmem' := ((hw.pages e' (.tail _ he') hu').mem_iff.mpr
      ⟨(le_max_left ..).trans hle', hlt'⟩).1
    have := (List.pairwise_cons.mp hw.disjoint).1 e' he' hu hu'
    omega

/-! ## Boot -/

variable {memory : Bitmap} {b : Boot}

theorem WellFormed.usable_iff (hw : WellFormed entries) : Usable entries page ∧ page ≠ 0 ↔
    ∃ e ∈ entries, e.Has page := by
  constructor
  · rintro ⟨⟨e, he, hu, hmem⟩, hne⟩
    exact ⟨e, he, hu, (hw.pages e he hu).mem_iff.mp ⟨hmem, hne⟩⟩
  · rintro ⟨e, he, hu, hmem⟩
    obtain ⟨hmem, hne⟩ := (hw.pages e he hu).mem_iff.mpr hmem
    exact ⟨⟨e, he, hu, hmem⟩, hne⟩

/-- Who owns a page, by its number: the zones are apart, and in each one the storage and the free
pages are. -/
structure Boot.Split (b : Boot) (entries : List MemmapEntry) (bits first count : Nat) : Prop where
  bitmap : ∀ page, b.Owns page .bitmap ↔ page = bits
  dma : ∀ page, b.Owns page .dma ↔
    (Usable entries page ∧ page ≠ 0) ∧ page < DMA_PAGES ∧ page ≠ bits
  frames : ∀ page, b.Owns page .frames ↔ first ≤ page ∧ page < first + count
  list : ∀ page, b.Owns page .list ↔
    (Usable entries page ∧ page ≠ 0) ∧ DMA_PAGES ≤ page ∧ ¬(first ≤ page ∧ page < first + count)
  bitmap_usable : (Usable entries bits ∧ bits ≠ 0) ∧ bits < DMA_PAGES
  frames_usable : ∀ page, first ≤ page → page < first + count →
    (Usable entries page ∧ page ≠ 0) ∧ DMA_PAGES ≤ page

theorem mem_pages : a * PAGE_SIZE ≤ page * PAGE_SIZE ∧
    page * PAGE_SIZE < a * PAGE_SIZE + m * PAGE_SIZE ↔ a ≤ page ∧ page < a + m := by
  simp only [PAGE_SIZE]
  omega

theorem boot_split (hw : WellFormed entries) (h : boot entries memory = some b) :
    ∃ bits first count, b.Split entries bits first count ∧ b.pslab.list.Nodup ∧
      ∀ x ∈ b.pslab.list, ∃ page, x = page * PAGE_SIZE ∧ page < b.pslab.frames.numPframes := by
  obtain ⟨pdma, hpdma, h⟩ := Option.bind_eq_some_iff.mp h
  obtain ⟨frames, hfrs, h⟩ := Option.bind_eq_some_iff.mp h
  obtain ⟨pslab, hpslab, rfl⟩ := Option.map_eq_some_iff.mp h
  obtain ⟨bits, hd⟩ := initPdma_spec hw hpdma
  obtain ⟨first, count, hf⟩ := initPframe_spec hw hfrs
  obtain ⟨ef, hef, huf, hfst, hend⟩ := hf.entry
  have hcnt : (first + count) * PAGE_SIZE < SIZE_RANGE :=
    (Nat.mul_le_mul_right _ hend).trans_lt (hw.pages ef hef huf).endPage_lt
  obtain ⟨pslab', hpslab', had⟩ := foldlM_pslabAddEntry (s := ⟨[], 0, frames⟩) hw hf.frames
    ⟨hf.storageStart, hf.storageLength⟩ hcnt
  obtain rfl := Option.some.inj (hpslab'.symm.trans hpslab)
  have hls : ∀ x, x ∈ pslab'.list ↔
      ∃ n, (∃ e ∈ entries, e.Gives first count n) ∧ x = n * PAGE_SIZE := fun x => by
    rw [had.list, or_iff_right (by simp)]
  refine ⟨bits, first, count, ⟨fun page => ?_, fun page => ?_, fun page => ?_, fun page => ?_,
    ⟨?_, hd.first_lt⟩, fun page hle hlt => ⟨?_, hf.le_first.trans hle⟩⟩,
    had.nodup .nil fun _ _ => List.not_mem_nil, fun x hx => ?_⟩
  · rw [Boot.Owns, hd.bitmapPhys, hd.bitmapSize]
    simp only [PAGE_SIZE]
    omega
  · rw [Boot.Owns, hd.free, hw.usable_iff]
    rfl
  · rw [Boot.Owns, had.storageStart, had.storageLength, hf.storageStart, hf.storageLength,
      mem_pages]
  · rw [Boot.Owns, hls, hw.usable_iff]
    constructor
    · rintro ⟨n, ⟨e, he, hu, ⟨hle, hlt⟩, hout⟩, heq⟩
      obtain rfl := Nat.eq_of_mul_eq_mul_right (by decide) heq
      exact ⟨⟨e, he, hu, (le_max_left ..).trans hle, hlt⟩, (le_max_right ..).trans hle, hout⟩
    · rintro ⟨⟨e, he, hu, hle, hlt⟩, hdma, hout⟩
      exact ⟨page, ⟨e, he, hu, ⟨max_le hle hdma, hlt⟩, hout⟩, rfl⟩
  · obtain ⟨e, he, hu, rfl, hlt⟩ := hd.entry
    exact hw.usable_iff.mpr ⟨e, he, hu, le_rfl, hlt⟩
  · exact hw.usable_iff.mpr ⟨ef, hef, huf, hfst.trans hle, hlt.trans_le hend⟩
  obtain ⟨n, ⟨e, he, hu, ⟨-, hlt⟩, -⟩, rfl⟩ := (hls x).mp hx
  refine ⟨n, rfl, ?_⟩
  rw [had.numPframes]
  exact hlt.trans_le (hf.frames e he hu)

namespace Boot.Split

variable {bits first count : Nat}

section
variable (hb : b.Split entries bits first count)
include hb

theorem usable (h : b.Owns page owner) : Usable entries page ∧ page ≠ 0 := by
  cases owner with
  | bitmap => exact (hb.bitmap page).mp h ▸ hb.bitmap_usable.1
  | dma => exact ((hb.dma page).mp h).1
  | frames =>
    obtain ⟨hle, hlt⟩ := (hb.frames page).mp h
    exact (hb.frames_usable page hle hlt).1
  | list => exact ((hb.list page).mp h).1

theorem exists_owner (hpg : Usable entries page ∧ page ≠ 0) : ∃ owner, b.Owns page owner := by
  rcases Nat.lt_or_ge page DMA_PAGES with hlow | hhi
  · rcases eq_or_ne page bits with heq | hne
    · exact ⟨.bitmap, (hb.bitmap page).mpr heq⟩
    · exact ⟨.dma, (hb.dma page).mpr ⟨hpg, hlow, hne⟩⟩
  · rcases Classical.em (first ≤ page ∧ page < first + count) with hin | hout
    · exact ⟨.frames, (hb.frames page).mpr hin⟩
    · exact ⟨.list, (hb.list page).mpr ⟨hpg, hhi, hout⟩⟩

theorem zone (h : b.Owns page owner) :
    match owner with
    | .bitmap => page < DMA_PAGES ∧ page = bits
    | .dma => page < DMA_PAGES ∧ page ≠ bits
    | .frames => DMA_PAGES ≤ page ∧ first ≤ page ∧ page < first + count
    | .list => DMA_PAGES ≤ page ∧ ¬(first ≤ page ∧ page < first + count) := by
  cases owner with
  | bitmap =>
    obtain rfl := (hb.bitmap page).mp h
    exact ⟨hb.bitmap_usable.2, rfl⟩
  | dma => exact ((hb.dma page).mp h).2
  | frames =>
    obtain ⟨hle, hlt⟩ := (hb.frames page).mp h
    exact ⟨(hb.frames_usable page hle hlt).2, hle, hlt⟩
  | list => exact ((hb.list page).mp h).2

theorem owner_unique (h : b.Owns page owner) (h' : b.Owns page owner') : owner = owner' := by
  have hzone := hb.zone h
  have hzone' := hb.zone h'
  cases owner <;> cases owner' <;> first | rfl | (exfalso; dsimp only at hzone hzone'; omega)

end

end Boot.Split

/-- **Boot memory is handed out once.** If the initializers return, every usable page but the first
one of memory has exactly one owner, no other page has one, and the free list of the page allocator
has every page once, each with a frame. -/
theorem boot_memory_owned_once (hw : WellFormed entries) (h : boot entries memory = some b) :
    (∀ page, Usable entries page → page ≠ 0 → ∃! owner, b.Owns page owner) ∧
      (∀ page owner, b.Owns page owner → Usable entries page ∧ page ≠ 0) ∧
      b.pslab.list.Nodup ∧ ∀ x ∈ b.pslab.list, x % PAGE_SIZE = 0 ∧
        (pframeOf b.pslab.frames x).isSome := by
  obtain ⟨bits, first, count, hb, hnodup, hlist⟩ := boot_split hw h
  refine ⟨fun page hu hne => ?_, fun page owner => hb.usable, hnodup, fun x hx => ?_⟩
  · obtain ⟨owner, howner⟩ := hb.exists_owner ⟨hu, hne⟩
    exact ⟨owner, howner, fun owner' h' => hb.owner_unique h' howner⟩
  obtain ⟨page, rfl, hlt⟩ := hlist x hx
  have hpage : page * PAGE_SIZE / PAGE_SIZE = page := Nat.mul_div_cancel _ (by decide)
  refine ⟨Nat.mul_mod_left .., ?_⟩
  rw [pframeOf, hpage, if_pos hlt]
  rfl

/-- A little memory below the DMA zone's end and a little above it. -/
def smallMap : List MemmapEntry :=
  [⟨0, 0x9F000, LIMINE_MEMMAP_USABLE⟩, ⟨0x9F000, 0x61000, 1⟩,
    ⟨0x1000000, 0x32000, LIMINE_MEMMAP_USABLE⟩]

theorem boot_memory_owned_once_smallMap :
    ∃ b, boot smallMap (fun _ => 0) = some b ∧
      ∀ page, Usable smallMap page → page ≠ 0 → ∃! owner, b.Owns page owner := by
  have hsome : (boot smallMap fun _ => 0).isSome := by decide +kernel
  obtain ⟨b, hb⟩ := Option.isSome_iff_exists.mp hsome
  refine ⟨b, hb, (boot_memory_owned_once ⟨?_, ?_⟩ hb).1⟩
  · rintro e he hu
    simp only [smallMap, List.mem_cons, List.not_mem_nil, or_false] at he
    rcases he with rfl | rfl | rfl
    · exact ⟨by decide, by decide, by decide, by decide⟩
    · cases hu
    · exact ⟨by decide, by decide, by decide, by decide⟩
  · simp [smallMap]

end Vex.Mm.BootMemory
