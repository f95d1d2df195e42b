import Vex.Mm.CowPages

/-! The loops over the pages of a region, on private anonymous memory: releasing them, changing
their rights and cloning them into another address space. -/

namespace Vex.Mm

open Lib.Intervals Vprot List

variable {pins : List Nat} {p p' : Pages} {f v page child source : Nat} {slot s : Slot}
  {e : Pmentry} {it : Region} {vprot vprot' : Vprot}

theorem Region.mem_pages {r : Region} (h1 : pageOffset r.start = 0) (h2 : pageOffset r.stop = 0) :
    page ∈ r.pages ↔ pageOffset page = 0 ∧ r.start ≤ page ∧ page < r.stop := by
  simp only [Region.pages, mem_map, mem_range]
  simp only [pageOffset, PAGE_SIZE] at h1 h2 ⊢
  constructor
  · rintro ⟨i, hi, rfl⟩
    omega
  · rintro ⟨h3, h4, h5⟩
    exact ⟨(page - r.start) / 4096, by omega, by omega⟩

/-! ## Releasing -/

/-- What releasing pages of `v` does: `batch` holds the references still to be put. -/
structure Released (v : Nat) (gone : Nat → Prop) (s s' : List Nat × Pages) : Prop where
  sound : Sound s'.1 s'.2
  data : s'.2.data = s.2.data
  pmaps : ∀ slot, s'.2.pmaps slot = none ∧ slot.1 = v ∧ gone slot.2 ∨
    s'.2.pmaps slot = s.2.pmaps slot ∧ ¬(slot.1 = v ∧ gone slot.2)

theorem Released.refl {s : List Nat × Pages} (h : Sound s.1 s.2) :
    Released v (fun _ => False) s s :=
  ⟨h, rfl, fun _ => .inr ⟨rfl, by simp⟩⟩

variable {gone gone' : Nat → Prop}

theorem Released.trans {s : List Nat × Pages} (h : Released v gone s s')
    (h' : Released v gone' s' s'') : Released v (fun x => gone x ∨ gone' x) s s'' := by
  refine ⟨h'.sound, h'.data.trans h.data, fun slot => ?_⟩
  rcases h'.pmaps slot with ⟨h1, h2, h3⟩ | ⟨h1, h2⟩
  · exact .inl ⟨h1, h2, .inr h3⟩
  rcases h.pmaps slot with ⟨h3, h4, h5⟩ | ⟨h3, h4⟩
  · exact .inl ⟨h1.trans h3, h4, .inl h5⟩
  · refine .inr ⟨h1.trans h3, ?_⟩
    tauto

theorem Released.congr {s : List Nat × Pages} (h : Released v gone s s')
    (hg : ∀ x, gone x ↔ gone' x) : Released v gone' s s' := by
  rwa [show gone' = gone from (funext fun x => propext (hg x)).symm]

theorem Released.widen {s : List Nat × Pages} (h : Released v gone s s')
    (hsub : ∀ x, gone x → gone' x) (hnone : ∀ x, gone' x → ¬gone x → s.2.pmaps (v, x) = none) :
    Released v gone' s s' := by
  refine ⟨h.sound, h.data, fun slot => ?_⟩
  rcases h.pmaps slot with ⟨h1, h2, h3⟩ | ⟨h1, h2⟩
  · exact .inl ⟨h1, h2, hsub _ h3⟩
  by_cases hg : slot.1 = v ∧ gone' slot.2
  · obtain ⟨rfl, hg⟩ := hg
    exact .inl ⟨h1.trans (hnone _ hg fun hno => h2 ⟨rfl, hno⟩), rfl, hg⟩
  · exact .inr ⟨h1, hg⟩

theorem freeBatch_sound (h : Sound pins p) : Sound [] (freeBatch p pins) := by
  induction pins generalizing p with
  | nil => exact h
  | cons f pins ih => exact ih (putFrame_sound h)

theorem Quiet.freeBatch (p : Pages) (batch : List Nat) : Quiet p (freeBatch p batch) := by
  induction batch generalizing p with
  | nil => exact .refl
  | cons f batch ih => exact (Quiet.putFrame p f).trans (ih _)

theorem releasePage_spec {s : List Nat × Pages} (h : Sound s.1 s.2) (page : Nat) :
    Released v (· = page) s (releasePage v s page) := by
  obtain ⟨batch, p⟩ := s
  cases he : p.pmaps (v, page) with
  | none =>
    simp only [releasePage, rmapUnmap_none he]
    refine ⟨h, rfl, fun slot => ?_⟩
    by_cases hs : slot = (v, page)
    · subst hs; exact .inl ⟨he, rfl, rfl⟩
    · exact .inr ⟨rfl, fun h => hs (Prod.ext h.1 h.2)⟩
  | some e =>
    have hsnd : Sound (batch ++ [e.frame]) (p.unlinked (v, page) e.frame) :=
      (h.unlink he).perm (perm_append_singleton _ _).symm
    have hpm : ∀ slot, (p.unlinked (v, page) e.frame).pmaps slot = none ∧ slot.1 = v ∧
        slot.2 = page ∨ (p.unlinked (v, page) e.frame).pmaps slot = p.pmaps slot ∧
          ¬(slot.1 = v ∧ slot.2 = page) := by
      intro slot
      by_cases hs : slot = (v, page)
      · subst hs; exact .inl ⟨unlinked_self p, rfl, rfl⟩
      · exact .inr ⟨unlinked_ne p hs, fun h => hs (Prod.ext h.1 h.2)⟩
    simp only [releasePage, rmapUnmap_some h he]
    split
    · refine ⟨freeBatch_sound hsnd, (Quiet.freeBatch _ _).data, fun slot => ?_⟩
      rw [(Quiet.freeBatch _ _).pmaps]
      exact hpm slot
    · exact ⟨hsnd, rfl, hpm⟩

theorem releasePage_foldl {s : List Nat × Pages} (h : Sound s.1 s.2) (l : List Nat) :
    Released v (· ∈ l) s (l.foldl (releasePage v) s) := by
  induction l generalizing s with
  | nil => exact (Released.refl h).congr (by simp)
  | cons page l ih =>
    have h1 := releasePage_spec (v := v) h page
    exact (h1.trans (ih h1.sound)).congr fun x => mem_cons.symm

theorem releasePages_foldl {s : List Nat × Pages} (h : Sound s.1 s.2) (taken : List Region)
    (hdev : ∀ r ∈ taken, r.device = false) :
    Released v (fun x => ∃ r ∈ taken, x ∈ r.pages) s (taken.foldl (releasePages v) s) := by
  induction taken generalizing s with
  | nil => exact (Released.refl h).congr (by simp)
  | cons r taken ih =>
    have h1 : Released v (· ∈ r.pages) s (releasePages v s r) := by
      rw [releasePages, hdev r (by simp)]
      exact releasePage_foldl h r.pages
    exact (h1.trans (ih h1.sound fun q hq => hdev q (by simp [hq]))).congr fun x => by simp

/-- Releasing regions of anonymous memory unmaps their pages and nothing else, and gives back
what they held. -/
theorem releaseRegions_spec (h : Sound [] p) (taken : List Region)
    (hdev : ∀ r ∈ taken, r.device = false) :
    Released v (fun x => ∃ r ∈ taken, x ∈ r.pages) ([], p) ([], releaseRegions v p taken) := by
  have h1 := releasePages_foldl (v := v) (s := ([], p)) h taken hdev
  have hq := Quiet.freeBatch (taken.foldl (releasePages v) ([], p)).2
    (taken.foldl (releasePages v) ([], p)).1
  refine ⟨freeBatch_sound h1.sound, hq.data.trans h1.data, fun slot => ?_⟩
  rw [releaseRegions, hq.pmaps]
  exact h1.pmaps slot

theorem Released.byteAt (h : Released v gone (batch, p) (batch', p')) (s : Slot) :
    (s.1 = v ∧ gone s.2 ∧ byteAt p' s = fun _ => 0) ∨
      ¬(s.1 = v ∧ gone s.2) ∧ byteAt p' s = byteAt p s := by
  rcases h.pmaps s with ⟨h1, h2, h3⟩ | ⟨h1, h2⟩
  · refine .inl ⟨h2, h3, funext fun o => ?_⟩
    have hpm : p'.pmaps s = none := h1
    simp only [Mm.byteAt, hpm]
  · refine .inr ⟨h2, funext fun o => ?_⟩
    have hpm : p'.pmaps s = p.pmaps s := h1
    have hdt : p'.data = p.data := h.data
    simp only [Mm.byteAt, hpm, hdt]

/-! ## Changing rights -/

/-- What changing the rights of pages of `v` does to the entries. -/
structure Reprotected (v : Nat) (at' : Nat → Prop) (b : Bool) (p p' : Pages) : Prop where
  sound : Sound [] p'
  bytes : byteAt p' = byteAt p
  others : ∀ s, ¬(s.1 = v ∧ at' s.2) → p'.pmaps s = p.pmaps s
  rights : ∀ x e, at' x → p'.pmaps (v, x) = some e → Vprot.writes e.vprot = true → b = true
  mapped : ∀ s, (p'.pmaps s).isSome = (p.pmaps s).isSome

variable {b : Bool} {at' at'' : Nat → Prop}

theorem Reprotected.refl (h : Sound [] p) : Reprotected v (fun _ => False) b p p :=
  ⟨h, rfl, fun _ _ => rfl, nofun, fun _ => rfl⟩

theorem Reprotected.trans (h : Reprotected v at' b p p') (h' : Reprotected v at'' b p' p'') :
    Reprotected v (fun x => at' x ∨ at'' x) b p p'' := by
  refine ⟨h'.sound, h'.bytes.trans h.bytes, fun s hs => ?_, fun x e hx he hw => ?_, fun s => ?_⟩
  · exact (h'.others s fun hs' => hs ⟨hs'.1, .inr hs'.2⟩).trans
      (h.others s fun hs' => hs ⟨hs'.1, .inl hs'.2⟩)
  · by_cases hx' : at'' x
    · exact h'.rights x e hx' he hw
    · rw [h'.others (v, x) fun hs => hx' hs.2] at he
      exact h.rights x e (hx.resolve_right hx') he hw
  · rw [h'.mapped, h.mapped]

theorem Reprotected.congr (h : Reprotected v at' b p p') (hc : ∀ x, at' x ↔ at'' x) :
    Reprotected v at'' b p p' := by
  rwa [show at'' = at' from (funext fun x => propext (hc x)).symm]

theorem Sound.sole_of_unshared (h : Sound [] p) (he : p.pmaps slot = some e)
    (hs : pframeShared p e.frame = false) : (p.frames e.frame).mappings = [slot] := by
  have hmem := h.mem_mappings he
  have hr := h.refcount e.frame
  simp only [pframeShared, decide_eq_false_iff_not] at hs hr
  have hlen : (p.frames e.frame).mappings.length = 1 := by
    have := length_pos_of_mem hmem
    omega
  obtain ⟨s, hs⟩ := length_eq_one_iff.mp hlen
  rw [hs] at hmem ⊢
  rw [mem_singleton.mp hmem]

theorem protectPage_spec (h : Sound [] p) (ha : it.Anonymous) (page : Nat) :
    Reprotected v (· = page) (writes vprot) p (protectPage v vprot it p page) := by
  have hne : ∀ {s : Slot}, ¬(s.1 = v ∧ s.2 = page) → s ≠ (v, page) := by
    rintro s hs rfl
    exact hs ⟨rfl, rfl⟩
  cases he : p.pmaps (v, page) with
  | none =>
    simp only [protectPage, resolve_none he]
    refine ⟨h, rfl, fun _ _ => rfl, ?_, fun _ => rfl⟩
    rintro x e rfl hx
    rw [he] at hx
    cases hx
  | some e =>
    set vp := if pframeShared p e.frame = true then (vprot ||| VPROT_USER) &&& ~~~VPROT_WRITE
      else vprot ||| VPROT_USER with hvp
    have hpt : protectPage v vprot it p page =
        p.setEntry (v, page) (some { e with vprot := vp }) := by
      simp only [protectPage, h.resolve he, ha.device, ha.shared, Bool.false_or, Bool.false_eq_true,
        if_false, pmapPatchNoflush, he, hvp]
    have hw : writes vp = true →
        (p.frames e.frame).mappings = [(v, page)] ∧ writes vprot = true := by
      intro hw
      rw [hvp] at hw
      split at hw
      · simp at hw
      · rename_i hs
        exact ⟨h.sole_of_unshared he (by simpa using hs), by simpa using hw⟩
    rw [hpt]
    refine ⟨h.patch he fun h' => (hw h').1, byteAt_patch he, fun s hs => ?_, ?_, fun s => ?_⟩
    · exact setEntry_ne _ _ (hne hs)
    · rintro x d rfl hd hdw
      rw [setEntry_self] at hd
      cases hd
      exact (hw hdw).2
    · by_cases hs : s = (v, page)
      · subst hs; simp [he]
      · rw [setEntry_ne _ _ hs]

theorem protectPages_foldl (h : Sound [] p) (ha : it.Anonymous) (l : List Nat) :
    Reprotected v (· ∈ l) (writes vprot) p (l.foldl (protectPage v vprot it) p) := by
  induction l generalizing p with
  | nil => exact (Reprotected.refl h).congr (by simp)
  | cons page l ih =>
    have h1 : Reprotected v (· = page) (writes vprot) p (protectPage v vprot it p page) :=
      protectPage_spec h ha page
    exact (h1.trans (ih h1.sound)).congr fun x => mem_cons.symm

theorem protectRegions_foldl (vprot : Vprot) (h : Sound [] p) (regions : List Region)
    (ha : ∀ r ∈ regions, r.Anonymous) :
    Reprotected v (fun x => ∃ r ∈ regions, x ∈ r.pages) (writes vprot) p
      (regions.foldl (fun p it => it.pages.foldl (protectPage v vprot it) p) p) := by
  induction regions generalizing p with
  | nil => exact (Reprotected.refl h).congr (by simp)
  | cons r regions ih =>
    have h1 : Reprotected v (· ∈ r.pages) (writes vprot) p
        (r.pages.foldl (protectPage v vprot r) p) := protectPages_foldl h (ha r (by simp)) r.pages
    exact (h1.trans (ih h1.sound fun q hq => ha q (by simp [hq]))).congr fun x => by simp

/-! ## Cloning -/

/-- The pages while `source` is cloned into `child`, starting from `p0`: the pages in `at'` are
mapped in both, writable in neither, and nothing else of the child is mapped. -/
structure Cloned (child source : Nat) (p0 : Pages) (at' : Nat → Prop) (p : Pages) : Prop where
  sound : Sound [] p
  data : p.data = p0.data
  frames : ∀ s, s.1 ≠ child → (p.pmaps s).map (·.frame) = (p0.pmaps s).map (·.frame)
  weaker : ∀ s e, s.1 ≠ child → p.pmaps s = some e →
    ∃ d, p0.pmaps s = some d ∧ (Vprot.writes e.vprot = true → Vprot.writes d.vprot = true)
  shared : ∀ x, at' x → (p.pmaps (child, x)).map (·.frame) = (p0.pmaps (source, x)).map (·.frame)
  rest : ∀ x, ¬at' x → p.pmaps (child, x) = none
  readonly : ∀ x e, p.pmaps (child, x) = some e → Vprot.writes e.vprot = false

variable {p0 : Pages}

theorem Cloned.start (h : Sound [] p) (hc : ∀ x, p.pmaps (child, x) = none) :
    Cloned child source p (fun _ => False) p :=
  ⟨h, rfl, fun _ _ => rfl, fun _ e _ he => ⟨e, he, id⟩, nofun, fun x _ => hc x,
    fun x e he => by rw [hc x] at he; cases he⟩

theorem Cloned.quiet (h : Cloned child source p0 at' p) (hs : Sound [] p') (hq : Quiet p p') :
    Cloned child source p0 at' p' := by
  refine ⟨hs, hq.data.trans h.data, ?_, ?_, ?_, ?_, ?_⟩ <;> rw [hq.pmaps]
  · exact h.frames
  · exact h.weaker
  · exact h.shared
  · exact h.rest
  · exact h.readonly

theorem Cloned.congr (h : Cloned child source p0 at' p) (hc : ∀ x, at' x ↔ at'' x) :
    Cloned child source p0 at'' p := by
  rwa [show at'' = at' from (funext fun x => propext (hc x)).symm]

theorem Sound.share (h : Sound [e.frame] p) (he : p.pmaps slot = some e) (hs : p.pmaps s = none)
    (htab : p.tables (tableOf s) = true) (hro : writes vprot = false)
    (hro' : writes vprot' = false) :
    Sound [] ((p.setEntry slot (some { e with vprot := vprot' })).linked s e.frame vprot) := by
  have hne : s ≠ slot := by
    rintro rfl
    rw [hs] at he
    cases he
  have hp : Sound [e.frame] (p.setEntry slot (some { e with vprot := vprot' })) :=
    h.patch he fun hw => by rw [hro'] at hw; cases hw
  refine hp.link ((setEntry_ne _ _ hne).trans hs) htab (fun s' d hd hdf => ?_)
    fun hw => by rw [hro] at hw; cases hw
  by_contra hw
  have hw : writes d.vprot = true := by simpa using hw
  have hsl := hp.sole s' d hd hw
  have hmem := hp.mem_mappings (setEntry_self p slot _)
  rw [hdf] at hsl
  rw [hsl] at hmem
  rw [← mem_singleton.mp hmem, setEntry_self] at hd
  cases hd
  rw [hro'] at hw
  cases hw

/-- Patching one page and mapping another can be done in either order. -/
theorem linked_setEntry (hne : s ≠ slot) (x : Option Pmentry) :
    (p.linked s f vprot).setEntry slot x = (p.setEntry slot x).linked s f vprot := by
  simp only [Pages.linked, Pages.setEntry, Pages.setMappings, Pages.setFrame]
  rw [Function.update_comm hne]

/-- The state after a page was cloned: its frame is mapped in both spaces, read-only. -/
theorem Cloned.both (h : Cloned child source p0 at' p) (hne : child ≠ source)
    (he : p.pmaps (source, page) = some e) (hq : Quiet p q) (hro : writes vprot = false)
    (hro' : writes vprot' = false)
    (hq' : q' = (q.setEntry (source, page) (some { e with vprot := vprot' })).linked
      (child, page) e.frame vprot) (hs : Sound [] q') :
    Cloned child source p0 (fun x => at' x ∨ x = page) q' := by
  have hfrm := h.frames (source, page) hne.symm
  rw [he] at hfrm
  have hoth : ∀ s, s ≠ (child, page) → s ≠ (source, page) → q'.pmaps s = p.pmaps s := by
    intro s h1 h2
    rw [hq', linked_ne _ h1, setEntry_ne _ _ h2, hq.pmaps]
  have hsource : q'.pmaps (source, page) = some { e with vprot := vprot' } := by
    rw [hq', linked_ne _ (by simp [hne.symm]), setEntry_self]
  have hsf : q'.pmaps (child, page) = some ⟨e.frame, vprot⟩ := by rw [hq', linked_self]
  have hch : ∀ {s : Slot}, s.1 ≠ child → s ≠ (child, page) := by
    rintro s hs rfl
    exact hs rfl
  refine ⟨hs, by rw [hq']; exact hq.data.trans h.data, fun s hs => ?_, fun s d hs hd => ?_,
    fun x hx => ?_, fun x hx => ?_, fun x d hd => ?_⟩
  · by_cases hsrc : s = (source, page)
    · subst hsrc
      rw [hsource, ← hfrm]
      rfl
    · rw [hoth s (hch hs) hsrc]
      exact h.frames s hs
  · by_cases hsrc : s = (source, page)
    · subst hsrc
      rw [hsource] at hd
      cases hd
      obtain ⟨d, hd, -⟩ := h.weaker _ e hne.symm he
      exact ⟨d, hd, fun hw => by rw [hro'] at hw; cases hw⟩
    · rw [hoth s (hch hs) hsrc] at hd
      exact h.weaker s d hs hd
  · by_cases hxp : x = page
    · subst hxp
      rw [hsf, ← hfrm]
      rfl
    · rw [hoth (child, x) (by simp [hxp]) (by simp [hne])]
      exact h.shared x (hx.resolve_right hxp)
  · push Not at hx
    rw [hoth (child, x) (by simp [hx.2]) (by simp [hne])]
    exact h.rest x hx.1
  by_cases hxp : x = page
  · subst hxp
    rw [hsf] at hd
    cases hd
    exact hro
  · rw [hoth (child, x) (by simp [hxp]) (by simp [hne])] at hd
    exact h.readonly x d hd

theorem Cloned.unmapped (h : Cloned child source p0 at' p) (hne : child ≠ source)
    (he : p.pmaps (source, page) = none) :
    Cloned child source p0 (fun x => at' x ∨ x = page) p := by
  have hfrm := h.frames (source, page) hne.symm
  rw [he] at hfrm
  refine { h with shared := fun x hx => ?_, rest := fun x hx => h.rest x fun h => hx (.inl h) }
  by_cases hxp : x = page
  · subst hxp
    by_cases hx : at' x
    · exact h.shared x hx
    · rw [h.rest x hx, ← hfrm]
  · exact h.shared x (hx.resolve_right hxp)

/-- What cloning needs of a region: that it allows the pages of the source. -/
def Covers (source : Nat) (p0 : Pages) (it : Region) : Prop :=
  ∀ x e, x ∈ it.pages → p0.pmaps (source, x) = some e → Vprot.writes e.vprot = true →
    Vprot.writes it.vprot = true

section
variable (h : Cloned child source p0 at' p)
include h

theorem clonePage_ok (hne : child ≠ source) (ha : it.Anonymous) (hit : Covers source p0 it)
    (hpg : page ∈ it.pages)
    (hc : clonePage child source it p page = (.ok (), p')) :
    Cloned child source p0 (fun x => at' x ∨ x = page) p' := by
  set vprot := (it.vprot &&& ~~~VPROT_WRITE) ||| VPROT_USER with hvp
  have hro : writes vprot = false := by simp [hvp]
  cases he : p.pmaps (source, page) with
  | none =>
    simp only [clonePage, rmapPin_none he] at hc
    cases hc
    exact h.unmapped hne he
  | some e =>
    simp only [clonePage, rmapPin_some h.sound he, ha.shared] at hc
    rcases hmap : rmapMap (pframeIncref p e.frame) (child, page) e.frame vprot with
      ⟨err | ⟨⟨⟩⟩, p1⟩ <;> rw [hmap] at hc
    · cases hc
    obtain ⟨q, hq, htab, hsl, rfl⟩ := rmapMap_ok hmap
    have hpin : Sound [e.frame] q := (pframeIncref_sound h.sound (h.sound.nonzero _ _ he)).alike hq
    have hqui : Quiet p q := (Quiet.setFrame ..).trans hq.toQuiet
    have heq : q.pmaps (source, page) = some e := by rw [hqui.pmaps, he]
    have hsq : q.pmaps (child, page) = none := by rw [hq.pmaps]; exact hsl
    have hcs : (child, page) ≠ (source, page) := by simp [hne]
    by_cases hw : writes it.vprot = true
    · have hlk : (q.linked (child, page) e.frame vprot).pmaps (source, page) = some e := by
        rw [linked_ne _ hcs.symm, heq]
      simp only [hw, Bool.not_false, pmapPatchNoflush, hlk] at hc
      cases hc
      exact h.both hne he hqui hro hro (linked_setEntry hcs _)
        (linked_setEntry hcs _ ▸ hpin.share heq hsq htab hro hro)
    · -- a region that may not be written has no writable page, so nothing is patched
      have hew : writes e.vprot = false := by
        by_contra hno
        obtain ⟨d, hd, hdw⟩ := h.weaker (source, page) e hne.symm he
        exact hw (hit page d hpg hd (hdw (by simpa using hno)))
      have hsame : q.setEntry (source, page) (some { e with vprot := e.vprot }) = q := by
        rw [Pages.setEntry, ← heq, Function.update_eq_self]
      simp only [hw, Bool.false_and] at hc
      cases hc
      exact h.both hne he hqui hro hew (by rw [hsame])
        (by have := hpin.share heq hsq htab hro hew; rwa [hsame] at this)

theorem clonePage_error (hc : clonePage child source it p page = (.error err, p')) :
    Cloned child source p0 at' p' := by
  cases he : p.pmaps (source, page) with
  | none =>
    simp only [clonePage, rmapPin_none he] at hc
    cases hc
  | some e =>
    simp only [clonePage, rmapPin_some h.sound he] at hc
    rcases hmap : rmapMap (pframeIncref p e.frame) (child, page) e.frame
      ((it.vprot &&& ~~~VPROT_WRITE) ||| VPROT_USER) with ⟨err' | ⟨⟨⟩⟩, p1⟩ <;> rw [hmap] at hc
    · cases hc
      have ha := (rmapMap_error hmap).1
      have hpin := pframeIncref_sound h.sound (h.sound.nonzero _ _ he)
      exact h.quiet (putFrame_sound (hpin.alike ha))
        ((Quiet.setFrame ..).trans (ha.toQuiet.trans (.putFrame _ _)))
    · dsimp only at hc
      split at hc <;> cases hc

/-- The inner loop of `vms_clone`: all the pages, or those before the one that failed. -/
theorem clonePages_spec (hne : child ≠ source) (ha : it.Anonymous) (hit : Covers source p0 it)
    (l : List Nat) (hl : ∀ x ∈ l, x ∈ it.pages) (hc : clonePages child source it l p = (r, p')) :
    (r = .ok () → Cloned child source p0 (fun x => at' x ∨ x ∈ l) p') ∧
      ∃ at'', Cloned child source p0 at'' p' ∧ ∀ x, at'' x → at' x ∨ x ∈ it.pages := by
  induction l generalizing p at' with
  | nil =>
    cases hc
    exact ⟨fun _ => h.congr (by simp), at', h, fun x hx => .inl hx⟩
  | cons page l ih =>
    rw [clonePages] at hc
    split at hc <;> rename_i hpg
    · cases hc
      exact ⟨by simp, at', clonePage_error h hpg, fun x hx => .inl hx⟩
    have h1 := clonePage_ok h hne ha hit (hl page (by simp)) hpg
    obtain ⟨hok, at'', h2, hsub⟩ := ih h1 (fun x hx => hl x (by simp [hx])) hc
    refine ⟨fun hr => (hok hr).congr fun x => by simp [or_assoc], at'', h2, fun x hx => ?_⟩
    rcases hsub x hx with (hx | rfl) | hx
    · exact .inl hx
    · exact .inr (hl x (by simp))
    · exact .inr hx

end

theorem cloneRegion_pages (it : Region) : (cloneRegion it).pages = it.pages := by
  rcases it with ⟨s, e, vp, _ | f, o, sh, mw, d⟩ <;> rfl

theorem cloneRegion_device (ha : it.Anonymous) : (cloneRegion it).device = false := by
  simp [cloneRegion, allocRegion, ha.file]

/-- The regions made so far hold every page the child got. -/
structure Holds (at' : Nat → Prop) (done : List Region) : Prop where
  pages : ∀ x, at' x → ∃ r ∈ done, x ∈ r.pages
  device : ∀ r ∈ done, r.device = false

theorem Holds.snoc (h : Holds at' done) (ha : it.Anonymous)
    (hsub : ∀ x, at'' x → at' x ∨ x ∈ it.pages) : Holds at'' (done ++ [cloneRegion it]) := by
  refine ⟨fun x hx => ?_, fun r hr => ?_⟩
  · rcases hsub x hx with hx | hx
    · obtain ⟨r, hr, hxr⟩ := h.pages x hx
      exact ⟨r, by simp [hr], hxr⟩
    · exact ⟨cloneRegion it, by simp, (cloneRegion_pages it).symm ▸ hx⟩
  · rcases mem_append.mp hr with hr | hr
    · exact h.device r hr
    · rw [mem_singleton.mp hr]
      exact cloneRegion_device ha

theorem cloneRegions_spec (h : Cloned child source p0 at' p) (hne : child ≠ source)
    (l : List Region) (ha : ∀ it ∈ l, it.Anonymous) (hcov : ∀ it ∈ l, Covers source p0 it)
    (hdone : Holds at' done) (hc : cloneRegions child source l done p = (r, done', p')) :
    (r = .ok () → Cloned child source p0 (fun x => at' x ∨ ∃ it ∈ l, x ∈ it.pages) p') ∧
      ∃ at'', Cloned child source p0 at'' p' ∧ Holds at'' done' := by
  induction l generalizing p at' done with
  | nil =>
    cases hc
    exact ⟨fun _ => h.congr (by simp), at', h, hdone⟩
  | cons it l ih =>
    have hit := ha it (by simp)
    have hs : Cloned child source p0 at' p.spent :=
      h.quiet (h.sound.alike (.spent p)) (Alike.spent p).toQuiet
    rw [cloneRegions] at hc
    split at hc
    · cases hc
      exact ⟨by simp, at', hs, hdone⟩
    rw [hit.device] at hc
    rcases hpgs : clonePages child source it it.pages p.spent with ⟨err | ⟨⟨⟩⟩, p1⟩ <;>
      rw [hpgs] at hc <;>
      obtain ⟨hok, at'', h1, hsub⟩ :=
        clonePages_spec hs hne hit (hcov it (by simp)) it.pages (fun _ h => h) hpgs
    · cases hc
      exact ⟨by simp, at'', h1, hdone.snoc hit hsub⟩
    have h2 := hok rfl
    obtain ⟨hok', hrs⟩ := ih h2 (fun q hq => ha q (by simp [hq]))
      (fun q hq => hcov q (by simp [hq])) (hdone.snoc hit fun x hx => hx) hc
    exact ⟨fun hr => (hok' hr).congr fun x => by simp [or_assoc], hrs⟩

/-- `vms_clone` of anonymous memory: the child shares every page of the source, read-only, or
has none; the source shows what it showed. -/
theorem vmsClone_pages (h : Sound [] p) (hc : ∀ x, p.pmaps (child, x) = none) (hne : child ≠ source)
    (ha : ∀ it ∈ l, it.Anonymous) (hcov : ∀ it ∈ l, Covers source p it) :
    let r := vmsClone p child source l
    Cloned child source p (fun x => r.1 = .ok () ∧ ∃ it ∈ l, x ∈ it.pages) r.2.2 := by
  have hsta : Cloned child source p (fun _ => False) p := .start h hc
  rcases hclone : cloneRegions child source l [] p with ⟨r, done, p1⟩
  obtain ⟨hok, at'', h1, hhd⟩ :=
    cloneRegions_spec hsta hne l ha hcov ⟨nofun, by simp⟩ hclone
  cases r with
  | ok =>
    simp only [vmsClone, hclone]
    exact (hok rfl).congr fun x => by simp
  | error err =>
    simp only [vmsClone, hclone]
    have hrel : Released child (fun x => ∃ r ∈ done, x ∈ r.pages) ([], p1)
        ([], releaseRegions child p1 done) := releaseRegions_spec h1.sound done hhd.device
    have hsame : ∀ s : Slot, s.1 ≠ child →
        (releaseRegions child p1 done).pmaps s = p1.pmaps s := by
      intro s hs
      rcases hrel.pmaps s with ⟨-, h2, -⟩ | ⟨h2, -⟩
      · exact absurd h2 hs
      · exact h2
    have hgn : ∀ x, (releaseRegions child p1 done).pmaps (child, x) = none := by
      intro x
      rcases hrel.pmaps (child, x) with ⟨h2, -⟩ | ⟨h2, h3⟩
      · exact h2
      · refine h2.trans (h1.rest x fun hx => h3 ⟨rfl, hhd.pages x hx⟩)
    refine ⟨hrel.sound, hrel.data.trans h1.data, fun s hs => ?_, fun s e hs he => ?_, ?_,
      fun x _ => hgn x, fun x e he => ?_⟩
    · rw [hsame s hs]
      exact h1.frames s hs
    · rw [hsame s hs] at he
      exact h1.weaker s e hs he
    · simp
    · rw [hgn x] at he
      cases he

end Vex.Mm
