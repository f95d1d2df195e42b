import Mathlib.Data.List.Count
import Vex.Mm.Frame

/-! The three pieces of state that decide sharing, kept together: the reference count of a frame,
its list of mappings and the page table entries. `Sound pins p` says that they agree, where
`pins` are the references that are no mapping: a pin, a frame just allocated, or the reference of
a mapping that is gone and not yet put back. Each function of `rmap.c` moves a reference between
the mappings and the pins, and `Sound` says which way. -/

namespace Vex.Mm

open Function Pages List

/-- The byte a page table shows at an offset of a page; zero where nothing is mapped, which is
what a fault would map there. -/
def byteAt (p : Pages) (slot : Slot) (o : Nat) : UInt8 :=
  match p.pmaps slot with
  | some e => p.data e.frame o
  | none => 0

/-- Reference counts, reverse mappings and page tables agree, and a writable page is the only
mapping of its frame. -/
structure Sound (pins : List Nat) (p : Pages) : Prop where
  refcount : ∀ f, (p.frames f).refcount = (p.frames f).mappings.length + pins.count f
  nodup : ∀ f, (p.frames f).mappings.Nodup
  mapped : ∀ f slot, slot ∈ (p.frames f).mappings ↔ ∃ e, p.pmaps slot = some e ∧ e.frame = f
  sole : ∀ slot e, p.pmaps slot = some e → Vprot.writes e.vprot = true →
    (p.frames e.frame).mappings = [slot]
  nonzero : ∀ slot e, p.pmaps slot = some e → e.frame ≠ 0
  pinned : ∀ f ∈ pins, f ≠ 0
  tabled : ∀ slot e, p.pmaps slot = some e → p.tables (tableOf slot) = true
  uncached : ∀ f, (p.frames f).cache = false

/-- Nothing that a page table shows has changed. -/
structure Quiet (p p' : Pages) : Prop where
  pmaps : p'.pmaps = p.pmaps
  data : p'.data = p.data

/-- Only the supply and the set of page tables have changed, the latter by growing. -/
structure Alike (p p' : Pages) : Prop extends Quiet p p' where
  frames : p'.frames = p.frames
  tables : ∀ t, p.tables t = true → p'.tables t = true

variable {pins pins' : List Nat} {p p' p'' : Pages} {f g : Nat} {slot s : Slot} {e : Pmentry}
  {vprot : Vprot}

theorem Quiet.refl : Quiet p p := ⟨rfl, rfl⟩

theorem Quiet.trans (h : Quiet p p') (h' : Quiet p' p'') : Quiet p p'' :=
  ⟨h'.pmaps.trans h.pmaps, h'.data.trans h.data⟩

theorem Quiet.byteAt (h : Quiet p p') : byteAt p' = byteAt p := by
  funext s o
  simp only [Mm.byteAt, h.pmaps, h.data]

theorem Alike.refl : Alike p p := ⟨.refl, rfl, fun _ h => h⟩

theorem Alike.trans (h : Alike p p') (h' : Alike p' p'') : Alike p p'' :=
  ⟨h.toQuiet.trans h'.toQuiet, h'.frames.trans h.frames, fun t ht => h'.tables t (h.tables t ht)⟩

theorem Alike.spent (p : Pages) : Alike p p.spent := ⟨⟨rfl, rfl⟩, rfl, fun _ h => h⟩

section
variable (h : Sound pins p)
include h

theorem Sound.alike (ha : Alike p p') : Sound pins p' where
  refcount := by rw [ha.frames]; exact h.refcount
  nodup := by rw [ha.frames]; exact h.nodup
  mapped := by rw [ha.frames, ha.pmaps]; exact h.mapped
  sole := by rw [ha.frames, ha.pmaps]; exact h.sole
  nonzero := by rw [ha.pmaps]; exact h.nonzero
  pinned := h.pinned
  tabled := by rw [ha.pmaps]; exact fun s e hs => ha.tables _ (h.tabled s e hs)
  uncached := by rw [ha.frames]; exact h.uncached

/-- Only how many pins a frame has matters. -/
theorem Sound.perm (hp : pins.Perm pins') : Sound pins' p :=
  { h with
    refcount := fun f => by rw [← hp.count_eq]; exact h.refcount f
    pinned := fun f hf => h.pinned f (hp.mem_iff.mpr hf) }

theorem Sound.free (hf : (p.frames f).refcount = 0) :
    (p.frames f).mappings = [] ∧ f ∉ pins := by
  have := h.refcount f
  exact ⟨eq_nil_of_length_eq_zero (by omega), count_eq_zero.mp (by omega)⟩

theorem Sound.mem_mappings (he : p.pmaps slot = some e) :
    slot ∈ (p.frames e.frame).mappings :=
  (h.mapped _ _).mpr ⟨e, he, rfl⟩

theorem Sound.frame_eq (he : p.pmaps slot = some e) (hf : slot ∈ (p.frames f).mappings) :
    e.frame = f := by
  obtain ⟨e', he', rfl⟩ := (h.mapped f slot).mp hf
  rw [he] at he'
  cases he'
  rfl

theorem Sound.frame_ne (he : p.pmaps slot = some e) (hm : (p.frames f).mappings = []) :
    e.frame ≠ f := by
  rintro rfl
  have := h.mem_mappings he
  rw [hm] at this
  cases this

theorem Sound.resolve (he : p.pmaps slot = some e) :
    pmapResolveAddress p slot = some e.frame := by
  simp [pmapResolveAddress, he, h.nonzero slot e he]

end

theorem resolve_none (he : p.pmaps slot = none) : pmapResolveAddress p slot = none := by
  simp [pmapResolveAddress, he]

/-! ## Reference counts -/

@[simp] theorem setFrame_self (p : Pages) (f : Nat) (x : Pframe) : (p.setFrame f x).frames f = x :=
  update_self ..

theorem setFrame_ne (p : Pages) (x : Pframe) (h : g ≠ f) :
    (p.setFrame f x).frames g = p.frames g :=
  update_of_ne h ..

theorem Quiet.setFrame (p : Pages) (f : Nat) (x : Pframe) : Quiet p (p.setFrame f x) := ⟨rfl, rfl⟩

theorem setFrame_mappings (p : Pages) (h : x.mappings = (p.frames f).mappings) (g : Nat) :
    ((p.setFrame f x).frames g).mappings = (p.frames g).mappings := by
  by_cases hg : g = f
  · subst hg; simpa using h
  · rw [setFrame_ne _ _ hg]

theorem Sound.setRefcount (h : Sound pins p) (hpins : ∀ f ∈ pins', f ≠ 0)
    (hf : n = (p.frames f).mappings.length + pins'.count f)
    (hg : ∀ g, g ≠ f → pins'.count g = pins.count g) :
    Sound pins' (p.setFrame f { p.frames f with refcount := n }) := by
  have hm := setFrame_mappings p (x := { p.frames f with refcount := n }) rfl
  refine ⟨fun g => ?_, fun g => ?_, fun g s => ?_, fun s e he hw => ?_, h.nonzero, hpins,
    h.tabled, fun g => ?_⟩
  · by_cases hgf : g = f
    · subst hgf; simpa using hf
    · rw [setFrame_ne _ _ hgf, hg g hgf, h.refcount g]
  · rw [hm]; exact h.nodup g
  · rw [hm]; exact h.mapped g s
  · rw [hm]; exact h.sole s e he hw
  by_cases hgf : g = f
  · subst hgf; simpa using h.uncached g
  · rw [setFrame_ne _ _ hgf, h.uncached g]

theorem pframeIncref_sound (h : Sound pins p) (hf : f ≠ 0) :
    Sound (f :: pins) (pframeIncref p f) := by
  refine h.setRefcount ?_ ?_ fun g hg => ?_
  · exact forall_mem_cons.mpr ⟨hf, h.pinned⟩
  · rw [h.refcount f, count_cons_self]
    omega
  · exact count_cons_of_ne (Ne.symm hg)

theorem putFrame_eq (p : Pages) (f : Nat) : putFrame p f =
    if (p.frames f).refcount > 1 then
      p.setFrame f { p.frames f with refcount := (p.frames f).refcount - 1 }
    else pslabFreePhys p f := by
  unfold putFrame pframeDecref
  split <;> rename_i h <;> split at h <;> cases h
  · rename_i hgt
    rw [if_neg hgt]
  · rename_i hgt
    rw [if_pos hgt]

theorem Quiet.pslabFreePhys (p : Pages) (f : Nat) : Quiet p (pslabFreePhys p f) := by
  unfold Mm.pslabFreePhys
  split
  · exact .refl
  · exact .setFrame ..

theorem Quiet.putFrame (p : Pages) (f : Nat) : Quiet p (putFrame p f) := by
  rw [putFrame_eq]
  split
  · exact .setFrame ..
  · exact .pslabFreePhys ..

theorem putFrame_sound (h : Sound (f :: pins) p) : Sound pins (putFrame p f) := by
  have hf0 := h.pinned f (by simp)
  have hr := h.refcount f
  rw [count_cons_self] at hr
  have hpins : ∀ g ∈ pins, g ≠ 0 := fun g hg => h.pinned g (by simp [hg])
  have hne : ∀ g, g ≠ f → pins.count g = (f :: pins).count g :=
    fun g hg => (count_cons_of_ne (Ne.symm hg)).symm
  rw [putFrame_eq]
  split
  · exact h.setRefcount hpins (by omega) hne
  · rw [pslabFreePhys, if_neg hf0]
    exact h.setRefcount hpins (by omega) hne

theorem pslabFreePhys_mappings (p : Pages) (f g : Nat) :
    ((pslabFreePhys p f).frames g).mappings = (p.frames g).mappings := by
  unfold pslabFreePhys
  split
  · rfl
  · exact setFrame_mappings p (by rfl) g

theorem putFrame_mappings (p : Pages) (f g : Nat) :
    ((putFrame p f).frames g).mappings = (p.frames g).mappings := by
  rw [putFrame_eq]
  split
  · exact setFrame_mappings p (by rfl) g
  · exact pslabFreePhys_mappings p f g

theorem pslabFreePhys_sound (h : Sound (f :: pins) p) (hm : (p.frames f).mappings = [])
    (hf : f ∉ pins) : Sound pins (pslabFreePhys p f) := by
  have hf0 := h.pinned f (by simp)
  rw [pslabFreePhys, if_neg hf0]
  refine h.setRefcount (fun g hg => h.pinned g (by simp [hg])) ?_ fun g hg => ?_
  · rw [hm, count_eq_zero.mpr hf]
    rfl
  · exact (count_cons_of_ne (Ne.symm hg)).symm

/-- What an allocation gives: a frame nothing holds, held by the caller alone. -/
structure Fresh (pins : List Nat) (p p' : Pages) (f : Nat) : Prop extends Quiet p p' where
  sound : Sound (f :: pins) p'
  mappings : (p'.frames f).mappings = []
  unpinned : f ∉ pins
  keeps : ∀ g, (p'.frames g).mappings = (p.frames g).mappings

theorem pslabAllocPhys_some (h : Sound pins p) (ha : pslabAllocPhys p = (some f, p')) :
    Fresh pins p p' f := by
  unfold pslabAllocPhys at ha
  split at ha
  · rename_i g hans
    split at ha
    · rename_i hg
      cases ha
      obtain ⟨hm, hpin⟩ := h.free hg.2
      have hs : Sound pins p.spent := h.alike (.spent p)
      refine ⟨⟨rfl, rfl⟩, ?_, by simpa using hm, hpin, fun g => ?_⟩
      · refine hs.setRefcount (forall_mem_cons.mpr ⟨hg.1, h.pinned⟩) ?_ fun g hgf => ?_
        · have hm' : (p.spent.frames f).mappings = [] := hm
          rw [hm', count_cons_self, count_eq_zero.mpr hpin]
          rfl
        · exact count_cons_of_ne (Ne.symm hgf)
      · exact setFrame_mappings p.spent (by rfl) g
    · cases ha
  · cases ha

theorem pslabAllocPhys_none (ha : pslabAllocPhys p = (none, p')) : Alike p p' := by
  unfold pslabAllocPhys at ha
  split at ha
  · split at ha
    · cases ha
    · cases ha
      exact .spent p
  · cases ha
    exact .spent p

/-! ## Page tables and reverse mappings -/

@[simp] theorem setEntry_self (p : Pages) (slot : Slot) (x : Option Pmentry) :
    (p.setEntry slot x).pmaps slot = x :=
  update_self ..

theorem setEntry_ne (p : Pages) (x : Option Pmentry) (h : s ≠ slot) :
    (p.setEntry slot x).pmaps s = p.pmaps s :=
  update_of_ne h ..

/-- An entry after one was set is that one, or an old one. -/
theorem setEntry_eq_some {x : Option Pmentry} (h : (p.setEntry slot x).pmaps s = some e) :
    s = slot ∧ x = some e ∨ s ≠ slot ∧ p.pmaps s = some e := by
  by_cases hs : s = slot
  · subst hs
    exact .inl ⟨rfl, (setEntry_self ..).symm.trans h⟩
  · exact .inr ⟨hs, (setEntry_ne _ _ hs).symm.trans h⟩

@[simp] theorem setMappings_self (p : Pages) (f : Nat) (l : List Slot) :
    ((p.setMappings f l).frames f).mappings = l := by
  simp [setMappings]

theorem setMappings_ne (p : Pages) (l : List Slot) (h : g ≠ f) :
    ((p.setMappings f l).frames g).mappings = (p.frames g).mappings := by
  rw [setMappings, setFrame_ne _ _ h]

theorem setMappings_refcount (p : Pages) (f g : Nat) (l : List Slot) :
    ((p.setMappings f l).frames g).refcount = (p.frames g).refcount := by
  by_cases hg : g = f
  · subst hg; simp [setMappings]
  · rw [setMappings, setFrame_ne _ _ hg]

theorem setMappings_cache (p : Pages) (f g : Nat) (l : List Slot) :
    ((p.setMappings f l).frames g).cache = (p.frames g).cache := by
  by_cases hg : g = f
  · subst hg; simp [setMappings]
  · rw [setMappings, setFrame_ne _ _ hg]

/-- The pages with a mapping of the slot added, and with one taken away. -/
def Pages.linked (p : Pages) (slot : Slot) (f : Nat) (vprot : Vprot) : Pages :=
  (p.setEntry slot (some ⟨f, vprot⟩)).setMappings f (slot :: (p.frames f).mappings)

def Pages.unlinked (p : Pages) (slot : Slot) (f : Nat) : Pages :=
  (p.setMappings f ((p.frames f).mappings.erase slot)).setEntry slot none

@[simp] theorem linked_self (p : Pages) : (p.linked slot f vprot).pmaps slot = some ⟨f, vprot⟩ :=
  setEntry_self ..

theorem linked_ne (p : Pages) (h : s ≠ slot) : (p.linked slot f vprot).pmaps s = p.pmaps s :=
  setEntry_ne _ _ h

@[simp] theorem unlinked_self (p : Pages) : (p.unlinked slot f).pmaps slot = none :=
  setEntry_self ..

theorem unlinked_ne (p : Pages) (h : s ≠ slot) : (p.unlinked slot f).pmaps s = p.pmaps s :=
  setEntry_ne _ _ h

/-- A new mapping takes over a pin of its frame. The frame must be mapped nowhere writable, and
nowhere at all if the new mapping is. -/
theorem Sound.link (h : Sound (f :: pins) p) (hsl : p.pmaps slot = none)
    (htab : p.tables (tableOf slot) = true)
    (hro : ∀ s e, p.pmaps s = some e → e.frame = f → Vprot.writes e.vprot = false)
    (hw : Vprot.writes vprot = true → (p.frames f).mappings = []) :
    Sound pins (p.linked slot f vprot) := by
  have hfree : ∀ g, slot ∉ (p.frames g).mappings := fun g hg => by
    obtain ⟨e, he, -⟩ := (h.mapped g slot).mp hg
    rw [hsl] at he
    cases he
  unfold linked
  refine ⟨fun g => ?_, fun g => ?_, fun g s => ?_, fun s e he hwe => ?_, fun s e he => ?_,
    fun g hg => h.pinned g (by simp [hg]), fun s e he => ?_, fun g => ?_⟩
  · rw [setMappings_refcount]
    have hr := h.refcount g
    by_cases hg : g = f
    · subst hg
      rw [setMappings_self, length_cons]
      rw [count_cons_self] at hr
      exact hr.trans (by omega)
    · rw [setMappings_ne _ _ hg]
      rw [count_cons_of_ne (Ne.symm hg)] at hr
      exact hr
  · by_cases hg : g = f
    · subst hg
      rw [setMappings_self]
      exact nodup_cons.mpr ⟨hfree g, h.nodup g⟩
    · rw [setMappings_ne _ _ hg]
      exact h.nodup g
  · change s ∈ _ ↔ ∃ e, (p.setEntry slot _).pmaps s = some e ∧ e.frame = g
    by_cases hs : s = slot
    · subst hs
      rw [setEntry_self]
      by_cases hg : g = f
      · subst hg; simp
      rw [setMappings_ne _ _ hg]
      constructor
      · exact fun hm => absurd hm (hfree g)
      rintro ⟨e, he, hf⟩
      cases he
      exact absurd hf.symm hg
    · rw [setEntry_ne _ _ hs, ← h.mapped g s]
      by_cases hg : g = f
      · subst hg
        rw [setMappings_self, mem_cons, or_iff_right hs]
      · rw [setMappings_ne _ _ hg]
        exact Iff.rfl
  · change (p.setEntry slot _).pmaps s = some e at he
    rcases setEntry_eq_some he with ⟨rfl, ⟨⟩⟩ | ⟨hs, he⟩
    · rw [setMappings_self, hw hwe]
    · have hef : e.frame ≠ f := fun hef => by
        rw [hro s e he hef] at hwe
        cases hwe
      rw [setMappings_ne _ _ hef]
      exact h.sole s e he hwe
  · change (p.setEntry slot _).pmaps s = some e at he
    rcases setEntry_eq_some he with ⟨-, ⟨⟩⟩ | ⟨-, he⟩
    · exact h.pinned f (by simp)
    · exact h.nonzero s e he
  · change (p.setEntry slot _).pmaps s = some e at he
    rcases setEntry_eq_some he with ⟨rfl, -⟩ | ⟨-, he⟩
    · exact htab
    · exact h.tabled s e he
  · rw [setMappings_cache]
    exact h.uncached g

/-- A mapping that goes away leaves its reference as a pin. -/
theorem Sound.unlink (h : Sound pins p) (he : p.pmaps slot = some e) :
    Sound (e.frame :: pins) (p.unlinked slot e.frame) := by
  have hmem := h.mem_mappings he
  unfold unlinked
  set p' := p.setMappings e.frame ((p.frames e.frame).mappings.erase slot) with hp'
  have hpm : ∀ s, p'.pmaps s = p.pmaps s := fun s => rfl
  have hmap : ∀ g s, s ∈ (p'.frames g).mappings ↔ s ≠ slot ∧ s ∈ (p.frames g).mappings := by
    intro g s
    by_cases hg : g = e.frame
    · subst hg
      rw [setMappings_self, (h.nodup _).mem_erase_iff]
    rw [setMappings_ne _ _ hg]
    refine ⟨fun hm => ⟨?_, hm⟩, fun hm => hm.2⟩
    rintro rfl
    exact hg (h.frame_eq he hm).symm
  refine ⟨fun g => ?_, fun g => ?_, fun g s => ?_, fun s d hd hw => ?_, fun s d hd => ?_, ?_,
    fun s d hd => ?_, fun g => ?_⟩
  · change (p'.frames g).refcount = (p'.frames g).mappings.length + _
    have hr := h.refcount g
    rw [setMappings_refcount]
    by_cases hg : g = e.frame
    · subst hg
      have := length_erase_of_mem hmem
      have := length_pos_of_mem hmem
      rw [setMappings_self, count_cons_self]
      omega
    · rw [setMappings_ne _ _ hg, count_cons_of_ne (Ne.symm hg)]
      exact hr
  · change (p'.frames g).mappings.Nodup
    by_cases hg : g = e.frame
    · subst hg
      rw [setMappings_self]
      exact (h.nodup _).erase slot
    · rw [setMappings_ne _ _ hg]
      exact h.nodup g
  · change s ∈ (p'.frames g).mappings ↔ _
    rw [hmap]
    by_cases hs : s = slot
    · subst hs; simp
    · rw [setEntry_ne _ _ hs, hpm, ← h.mapped g s]
      exact and_iff_right hs
  · obtain ⟨-, ⟨⟩⟩ | ⟨hs, hd⟩ := setEntry_eq_some hd
    have hsl := h.sole s d hd hw
    have hne : d.frame ≠ e.frame := by
      intro heq
      rw [← heq, hsl] at hmem
      exact hs (mem_singleton.mp hmem).symm
    change (p'.frames d.frame).mappings = [s]
    rw [setMappings_ne _ _ hne, hsl]
  · obtain ⟨-, ⟨⟩⟩ | ⟨-, hd⟩ := setEntry_eq_some hd
    exact h.nonzero s d hd
  · exact forall_mem_cons.mpr ⟨h.nonzero slot e he, h.pinned⟩
  · obtain ⟨-, ⟨⟩⟩ | ⟨-, hd⟩ := setEntry_eq_some hd
    exact h.tabled s d hd
  · change (p'.frames g).cache = false
    rw [setMappings_cache]
    exact h.uncached g

/-- Rights may change as long as only a sole mapping becomes writable. -/
theorem Sound.patch (h : Sound pins p) (he : p.pmaps slot = some e)
    (hw : Vprot.writes vprot = true → (p.frames e.frame).mappings = [slot]) :
    Sound pins (p.setEntry slot (some { e with vprot := vprot })) := by
  have hent : ∀ s d, (p.setEntry slot (some { e with vprot := vprot })).pmaps s = some d →
      ∃ d', p.pmaps s = some d' ∧ d'.frame = d.frame ∧
        (Vprot.writes d.vprot = true → (p.frames d.frame).mappings = [s]) := by
    intro s d hd
    obtain ⟨rfl, ⟨⟩⟩ | ⟨-, hd⟩ := setEntry_eq_some hd
    · exact ⟨e, he, rfl, hw⟩
    · exact ⟨d, hd, rfl, h.sole s d hd⟩
  refine ⟨h.refcount, h.nodup, fun g s => ?_, fun s d hd hwd => ?_, fun s d hd => ?_, h.pinned,
    fun s d hd => ?_, h.uncached⟩
  · change s ∈ (p.frames g).mappings ↔ _
    rw [h.mapped g s]
    by_cases hs : s = slot
    · subst hs; simp [he]
    · rw [setEntry_ne _ _ hs]
  · obtain ⟨d', -, -, hsl⟩ := hent s d hd
    exact hsl hwd
  · obtain ⟨d', hd', hf, -⟩ := hent s d hd
    exact hf ▸ h.nonzero s d' hd'
  · obtain ⟨d', hd', -, -⟩ := hent s d hd
    exact h.tabled s d' hd'

/-! ## What the functions do -/

theorem pmentryWalk_alike (p : Pages) (slot : Slot) : Alike p (pmentryWalk p slot).2 := by
  unfold pmentryWalk
  split
  · exact .refl
  split
  · refine ⟨⟨rfl, rfl⟩, rfl, fun t ht => ?_⟩
    by_cases hts : t = tableOf slot
    · subst hts; simp
    · simpa [update_of_ne hts] using ht
  · exact .spent p

theorem pmentryWalk_tables (h : (pmentryWalk p slot).1 = true) :
    (pmentryWalk p slot).2.tables (tableOf slot) = true := by
  unfold pmentryWalk at h ⊢
  split
  · assumption
  split
  · simp
  · simp_all

/-- A failed `pmap_map` has at most allocated page tables. -/
theorem pmapMap_error (h : pmapMap p slot f vprot = (.error err, p')) :
    Alike p p' ∧ (p.pmaps slot = none → err = .ENOMEM) := by
  have hwk := pmentryWalk_alike p slot
  unfold pmapMap at h
  split at h <;> rename_i hw <;> rw [hw] at hwk
  · cases h
    exact ⟨hwk, fun _ => rfl⟩
  split at h
  · rename_i q hsm
    cases h
    refine ⟨hwk, fun hsl => ?_⟩
    rw [hwk.pmaps, hsl] at hsm
    cases hsm
  · cases h

theorem pmapMap_ok (h : pmapMap p slot f vprot = (.ok (), p')) :
    ∃ q, Alike p q ∧ q.tables (tableOf slot) = true ∧ p.pmaps slot = none ∧
      p' = q.setEntry slot (some ⟨f, vprot⟩) := by
  have hwk := pmentryWalk_alike p slot
  have htab : (pmentryWalk p slot).1 = true → _ := pmentryWalk_tables
  unfold pmapMap at h
  split at h <;> rename_i hw <;> rw [hw] at hwk htab
  · cases h
  split at h
  · cases h
  rename_i q hnone
  cases h
  refine ⟨q, hwk, htab rfl, ?_, rfl⟩
  rw [← hwk.pmaps]
  simpa using hnone

/-- Where a table is and no entry, `pmap_map` has nothing to fail on. -/
theorem pmapMap_of_tabled (htab : p.tables (tableOf slot) = true) (hsl : p.pmaps slot = none) :
    pmapMap p slot f vprot = (.ok (), p.setEntry slot (some ⟨f, vprot⟩)) := by
  simp [pmapMap, pmentryWalk, htab, hsl]

theorem rmapMap_error (h : rmapMap p slot f vprot = (.error err, p')) :
    Alike p p' ∧ (p.pmaps slot = none → err = .ENOMEM) := by
  unfold rmapMap at h
  split at h
  · cases h
    exact ⟨.spent p, fun _ => rfl⟩
  split at h <;> rename_i hm <;> cases h
  obtain ⟨ha, herr⟩ := pmapMap_error hm
  exact ⟨(Alike.spent p).trans ha, herr⟩

theorem rmapMap_ok (h : rmapMap p slot f vprot = (.ok (), p')) :
    ∃ q, Alike p q ∧ q.tables (tableOf slot) = true ∧ p.pmaps slot = none ∧
      p' = q.linked slot f vprot := by
  unfold rmapMap at h
  split at h
  · cases h
  split at h <;> rename_i hm <;> cases h
  obtain ⟨q, hq, htab, hsl, rfl⟩ := pmapMap_ok hm
  exact ⟨q, (Alike.spent p).trans hq, htab, hsl, rfl⟩

theorem rmapUnmap_none (he : p.pmaps slot = none) : rmapUnmap p slot = (none, p) := by
  simp [rmapUnmap, resolve_none he]

section
variable (h : Sound pins p) (he : p.pmaps slot = some e)
include h he

theorem unlinkEntry_eq :
    unlinkEntry p e.frame slot =
      some (p.setMappings e.frame ((p.frames e.frame).mappings.erase slot)) := by
  rw [unlinkEntry, if_pos (h.mem_mappings he)]

theorem rmapUnmap_some :
    rmapUnmap p slot = (some e.frame, p.unlinked slot e.frame) := by
  have hp : (p.setMappings e.frame ((p.frames e.frame).mappings.erase slot)).pmaps slot =
      some e := he
  simp [rmapUnmap, h.resolve he, unlinkEntry_eq h he, pmapUnmapNoflush, hp, unlinked]

/-- Replacing never fails on a mapped page: its page table is still there. -/
theorem rmapReplace_eq :
    rmapReplace p slot e.frame g vprot =
      (.ok (), (p.unlinked slot e.frame).linked slot g vprot) := by
  set q := p.setMappings e.frame ((p.frames e.frame).mappings.erase slot) with hq
  have hun : (pmapUnmapNoflush q slot).2 = p.unlinked slot e.frame := by
    have hp : q.pmaps slot = some e := he
    simp only [pmapUnmapNoflush, hp]
    rfl
  have hmap : pmapMap (p.unlinked slot e.frame) slot g vprot =
      (.ok (), (p.unlinked slot e.frame).setEntry slot (some ⟨g, vprot⟩)) :=
    pmapMap_of_tabled (h.tabled slot e he) (unlinked_self p)
  simp only [rmapReplace, unlinkEntry_eq h he, ← hq, hun, hmap]
  rfl

theorem rmapPin_some :
    rmapPin p slot =
      (some (e.frame, soleMappingLocked (p.frames e.frame)), pframeIncref p e.frame) := by
  simp only [rmapPin, h.resolve he]

end

theorem rmapPin_none (he : p.pmaps slot = none) : rmapPin p slot = (none, p) := by
  simp only [rmapPin, resolve_none he]

theorem soleMappingLocked_iff (h : Sound pins p) (he : p.pmaps slot = some e) :
    soleMappingLocked (p.frames e.frame) = true ↔ (p.frames e.frame).mappings = [slot] := by
  have hmem := h.mem_mappings he
  unfold soleMappingLocked
  split
  · rename_i s hs
    rw [hs] at hmem ⊢
    rw [h.uncached, mem_singleton.mp hmem]
    simp
  · rename_i hno
    simp only [Bool.false_eq_true, false_iff]
    exact fun hs => hno slot hs

end Vex.Mm
