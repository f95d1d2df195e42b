import Vex.Mm.FrameLemmas
import Vex.Mm.RegionLemmas
import Vex.Mm.Vms

/-! What the page-level half of the vms functions does to private anonymous memory: which bytes
the page tables show before and after, and that the sharing state stays sound. -/

namespace Vex.Mm

open Lib.Intervals Vprot

/-- The region of a page, if there is one and by whether it is writable, allows the entry. -/
def Allows (w : Option Bool) (e : Pmentry) : Prop :=
  ∃ b, w = some b ∧ (writes e.vprot = true → b = true)

/-- Pages are mapped in regions only, and writable only where the region is. -/
def Placed (rights : Slot → Option Bool) (p : Pages) : Prop :=
  ∀ s e, p.pmaps s = some e → Allows (rights s) e

/-- The bytes shown are the same and only the entry of one page may have changed, to one its
region allows. -/
structure Kept (slot : Slot) (w : Option Bool) (p p' : Pages) : Prop where
  bytes : byteAt p' = byteAt p
  others : ∀ s, s ≠ slot → p'.pmaps s = p.pmaps s
  rights : ∀ e, p'.pmaps slot = some e → Allows w e

/-- The page is mapped, and its frame nowhere else. -/
def Owned (slot : Slot) (p : Pages) : Prop :=
  ∃ e, p.pmaps slot = some e ∧ (p.frames e.frame).mappings = [slot]

variable {pins : List Nat} {p p' p'' : Pages} {f g v page : Nat} {slot s : Slot} {e : Pmentry}
  {region : Region} {w : Option Bool} {vprot : Vprot}

theorem Kept.of_quiet (h : Quiet p p') (hr : ∀ e, p.pmaps slot = some e → Allows w e) :
    Kept slot w p p' :=
  ⟨h.byteAt, fun s _ => by rw [h.pmaps], by rw [h.pmaps]; exact hr⟩

theorem Kept.trans (h : Kept slot w p p') (h' : Kept slot w p' p'') : Kept slot w p p'' :=
  ⟨h'.bytes.trans h.bytes, fun s hs => (h'.others s hs).trans (h.others s hs), h'.rights⟩

theorem Kept.then_quiet (h : Kept slot w p p') (h' : Quiet p' p'') : Kept slot w p p'' :=
  h.trans (.of_quiet h' h.rights)

theorem Placed.kept (h : Placed rights p) (hk : Kept slot (rights slot) p p') :
    Placed rights p' := by
  intro s e he
  by_cases hs : s = slot
  · subst hs
    exact hk.rights e he
  · rw [hk.others s hs] at he
    exact h s e he

theorem Placed.quiet (h : Placed rights p) (hq : Quiet p p') : Placed rights p' := by
  unfold Placed
  rw [hq.pmaps]
  exact h

theorem Owned.of_keeps (h : Owned slot p) (hp : p'.pmaps = p.pmaps)
    (hm : ∀ g, (p'.frames g).mappings = (p.frames g).mappings) : Owned slot p' := by
  obtain ⟨e, he, hs⟩ := h
  exact ⟨e, hp ▸ he, by rw [hm, hs]⟩

theorem Owned.putFrame (h : Owned slot p) (f : Nat) : Owned slot (putFrame p f) :=
  h.of_keeps (Quiet.putFrame p f).pmaps (putFrame_mappings p f)

theorem byteAt_congr (hp : p'.pmaps s = p.pmaps s)
    (hd : ∀ e, p.pmaps s = some e → p'.data e.frame = p.data e.frame) :
    byteAt p' s = byteAt p s := by
  funext o
  unfold byteAt
  rw [hp]
  cases hs : p.pmaps s with
  | none => rfl
  | some e => exact congrFun (hd e hs) o

theorem byteAt_setData (h : Sound pins p) (hm : (p.frames f).mappings = []) (b : Nat → UInt8) :
    byteAt (p.setData f b) = byteAt p := by
  funext s
  exact byteAt_congr rfl fun e hs => Function.update_of_ne (h.frame_ne hs hm) ..

theorem Sound.setData (h : Sound pins p) (f : Nat) (b : Nat → UInt8) :
    Sound pins (p.setData f b) :=
  ⟨h.refcount, h.nodup, h.mapped, h.sole, h.nonzero, h.pinned, h.tabled, h.uncached⟩

theorem byteAt_patch (he : p.pmaps slot = some e) :
    byteAt (p.setEntry slot (some { e with vprot := vprot })) = byteAt p := by
  funext s o
  by_cases hs : s = slot
  · subst hs
    simp [byteAt, he, Pages.setEntry]
  · simp only [byteAt, setEntry_ne _ _ hs]
    rfl

theorem byteAt_replace (he : p.pmaps slot = some e) (hb : p.data g = p.data e.frame) :
    byteAt ((p.unlinked slot f).linked slot g vprot) = byteAt p := by
  funext s o
  by_cases hs : s = slot
  · subst hs
    simp only [byteAt, linked_self, he]
    exact congrFun hb o
  · simp only [byteAt, linked_ne _ hs, unlinked_ne _ hs]
    rfl

theorem allows_region (region : Region) :
    Allows (some (writes region.vprot)) ⟨f, region.vprot ||| VPROT_USER⟩ :=
  ⟨_, rfl, fun h => by simpa using h⟩

/-! ## Unsharing -/

/-- What `unshare_locked` does to a mapped page. -/
structure Unshared (pins : List Nat) (slot : Slot) (w : Option Bool) (p : Pages)
    (r : Except Errno Unit × Pages) : Prop where
  sound : Sound pins r.2
  kept : Kept slot w p r.2
  settled : r.1 ≠ .error .EAGAIN
  owned : r.1 = .ok () → Owned slot r.2

/-- The copy: the old frame, pinned, loses the mapping, and the new one gets it. -/
theorem replace_sound (h : Sound (g :: f :: pins) p) (he : p.pmaps slot = some e) (hf : e.frame = f)
    (hg : (p.frames g).mappings = []) :
    Sound (f :: f :: pins) ((p.unlinked slot f).linked slot g vprot) := by
  subst hf
  have hne : g ≠ e.frame := (h.frame_ne he hg).symm
  have hun : Sound (g :: e.frame :: e.frame :: pins) (p.unlinked slot e.frame) :=
    (h.unlink he).perm (.swap ..)
  have hgm : ((p.unlinked slot e.frame).frames g).mappings = [] := (setMappings_ne _ _ hne).trans hg
  exact hun.link (unlinked_self p) (h.tabled slot e he)
    (fun s d hd hdg => absurd hdg (hun.frame_ne hd hgm)) fun _ => hgm

section
variable (h : Sound pins p) (he : p.pmaps (v, page) = some e)
  (hw : Allows (some (writes region.vprot)) e)
include h he hw

theorem unshareLocked_sole (hsl : (p.frames e.frame).mappings = [(v, page)]) :
    Unshared pins (v, page) (some (writes region.vprot)) p
      (unshareLocked p v region page) := by
  have hpin := rmapPin_some h he
  rw [(soleMappingLocked_iff h he).mpr hsl] at hpin
  set p1 := pframeIncref p e.frame with hp1
  have h1 : Sound (e.frame :: pins) p1 := pframeIncref_sound h (h.nonzero _ _ he)
  have hq1 : Quiet p p1 := .setFrame ..
  have he1 : p1.pmaps (v, page) = some e := he
  have hm1 : (p1.frames e.frame).mappings = [(v, page)] := by
    rw [hp1, pframeIncref, setFrame_self]
    exact hsl
  simp only [unshareLocked, hpin]
  split
  · have hpatch : pmapPatchNoflush p1 (v, page) (region.vprot ||| VPROT_USER) =
        (.ok (), p1.setEntry (v, page) (some { e with vprot := region.vprot ||| VPROT_USER })) := by
      simp only [pmapPatchNoflush, he1]
    rw [hpatch]
    refine ⟨putFrame_sound (h1.patch he1 fun _ => hm1), ?_, by simp, fun _ => ?_⟩
    · refine Kept.then_quiet ⟨(byteAt_patch he1).trans hq1.byteAt, fun s hs => ?_, ?_⟩
        (.putFrame _ _)
      · rw [setEntry_ne _ _ hs, hq1.pmaps]
      intro d hd
      rw [setEntry_self] at hd
      cases hd
      exact allows_region region
    · refine Owned.putFrame ?_ e.frame
      exact ⟨_, setEntry_self .., hm1⟩
  · refine ⟨putFrame_sound h1, ?_, by simp, fun _ => Owned.putFrame ⟨e, he1, hm1⟩ _⟩
    refine .of_quiet (hq1.trans (.putFrame _ _)) fun d hd => ?_
    rw [he] at hd
    cases hd
    exact hw

theorem unshareLocked_copy (hsl : (p.frames e.frame).mappings ≠ [(v, page)]) :
    Unshared pins (v, page) (some (writes region.vprot)) p
      (unshareLocked p v region page) := by
  have hpin := rmapPin_some h he
  rw [Bool.eq_false_iff.mpr (mt (soleMappingLocked_iff h he).mp hsl)] at hpin
  set p1 := pframeIncref p e.frame with hp1
  have h1 : Sound (e.frame :: pins) p1 := pframeIncref_sound h (h.nonzero _ _ he)
  have hq1 : Quiet p p1 := .setFrame ..
  have hold : ∀ d, p.pmaps (v, page) = some d → Allows (some (writes region.vprot)) d := by
    intro d hd
    rw [he] at hd
    cases hd
    exact hw
  simp only [unshareLocked, hpin]
  rcases hal : pslabAllocPhys p1 with ⟨_ | copy, p2⟩
  · have ha := pslabAllocPhys_none hal
    exact ⟨putFrame_sound (h1.alike ha),
      .of_quiet (hq1.trans (ha.toQuiet.trans (.putFrame _ _))) hold, by simp, by simp⟩
  have fresh := pslabAllocPhys_some h1 hal
  set p3 := p2.setData copy (p2.data e.frame) with hp3
  have h3 : Sound (copy :: e.frame :: pins) p3 := fresh.sound.setData ..
  have he3 : p3.pmaps (v, page) = some e := by
    rw [hp3, Pages.setData, fresh.pmaps]
    exact he
  have hd3 : p3.data copy = p3.data e.frame := by
    rw [hp3]
    by_cases hc : e.frame = copy
    · rw [hc]
    · simp [Pages.setData, Function.update_of_ne hc]
  have hb3 : byteAt p3 = byteAt p :=
    (byteAt_setData fresh.sound fresh.mappings _).trans (fresh.toQuiet.byteAt.trans hq1.byteAt)
  set p4 := (p3.unlinked (v, page) e.frame).linked (v, page) copy (region.vprot ||| VPROT_USER)
  have hrep : rmapReplace p3 (v, page) e.frame copy (region.vprot ||| VPROT_USER) =
      (.ok (), p4) := rmapReplace_eq h3 he3
  have h4 : Sound (e.frame :: e.frame :: pins) p4 := replace_sound h3 he3 rfl fresh.mappings
  have hown : Owned (v, page) p4 := by
    refine ⟨_, linked_self _, ?_⟩
    have hne : copy ≠ e.frame := (h3.frame_ne he3 fresh.mappings).symm
    refine (setMappings_self _ copy _).trans (congrArg _ ?_)
    exact (setMappings_ne p3 _ hne).trans fresh.mappings
  simp only [← hp3, hrep]
  refine ⟨putFrame_sound (putFrame_sound h4), ?_, by simp, fun _ => ?_⟩
  · refine Kept.then_quiet ⟨(byteAt_replace he3 hd3).trans hb3, fun s hs => ?_, ?_⟩
      ((Quiet.putFrame _ _).trans (.putFrame _ _))
    · rw [linked_ne _ hs, unlinked_ne _ hs, hp3, Pages.setData, fresh.pmaps, hq1.pmaps]
    intro d hd
    rw [linked_self] at hd
    cases hd
    exact allows_region region
  · exact (hown.putFrame _).putFrame _

/-- Unsharing shows the same bytes, and after a success the page has its frame to itself. -/
theorem unshareLocked_spec : Unshared pins (v, page) (some (writes region.vprot)) p
      (unshareLocked p v region page) := by
  by_cases hsl : (p.frames e.frame).mappings = [(v, page)]
  · exact unshareLocked_sole h he hw hsl
  · exact unshareLocked_copy h he hw hsl

end

/-! ## Faults -/

/-- Private anonymous memory. -/
structure Region.Anonymous (r : Region) : Prop where
  file : r.file = none
  shared : r.shared = false
  device : r.device = false

/-- What a fault does, for a page that ends up shared or, if `exclusive`, owned. -/
structure Faulted (pins : List Nat) (slot : Slot) (w : Option Bool) (exclusive : Bool) (p : Pages)
    (r : Except Errno Unit × Pages) : Prop where
  sound : Sound pins r.2
  kept : Kept slot w p r.2
  settled : r.1 ≠ .error .EAGAIN
  mapped : r.1 = .ok () → ∃ e, r.2.pmaps slot = some e
  owned : r.1 = .ok () → exclusive = true → Owned slot r.2

theorem Faulted.refused (h : Sound pins p) (hr : ∀ e, p.pmaps slot = some e → Allows w e)
    (herr : err ≠ .EAGAIN) : Faulted pins slot w exclusive p (.error err, p) :=
  ⟨h, .of_quiet .refl hr, by simpa using herr, by simp, by simp⟩

theorem byteAt_linked_zero (hsl : p.pmaps slot = none) (hz : p.data f = fun _ => 0) :
    byteAt (p.linked slot f vprot) = byteAt p := by
  funext s o
  by_cases hs : s = slot
  · subst hs
    simp only [byteAt, linked_self, hsl]
    exact congrFun hz o
  · simp only [byteAt, linked_ne _ hs]
    rfl

/-- The first touch of an anonymous page maps a zeroed frame of its own. -/
theorem faultZero_spec (h : Sound pins p) (hsl : p.pmaps (v, page) = none) (exclusive : Bool) :
    Faulted pins (v, page) (some (writes region.vprot)) exclusive p
      (faultZero p v region page) := by
  have hnone : ∀ e, p.pmaps (v, page) = some e → Allows (some (writes region.vprot)) e := by
    rw [hsl]
    nofun
  unfold faultZero
  rcases hal : pslabAllocPhys p with ⟨_ | phys, p1⟩
  · have ha := pslabAllocPhys_none hal
    exact ⟨h.alike ha, .of_quiet ha.toQuiet hnone, by simp, by simp, by simp⟩
  have fresh := pslabAllocPhys_some h hal
  set p2 := p1.setData phys fun _ => 0 with hp2
  have h2 : Sound (phys :: pins) p2 := fresh.sound.setData ..
  have hb2 : byteAt p2 = byteAt p :=
    (byteAt_setData fresh.sound fresh.mappings _).trans fresh.toQuiet.byteAt
  have hpm2 : p2.pmaps = p.pmaps := fresh.pmaps
  have hz2 : p2.data phys = fun _ => 0 := Function.update_self ..
  simp only [← hp2]
  rcases hmap : rmapMap p2 (v, page) phys (region.vprot ||| VPROT_USER) with ⟨err | ⟨⟨⟩⟩, p3⟩
  · obtain ⟨ha, herr⟩ := rmapMap_error hmap
    have hm3 : (p3.frames phys).mappings = [] := by rw [ha.frames]; exact fresh.mappings
    have hs3 := pslabFreePhys_sound (h2.alike ha) hm3 fresh.unpinned
    have herr := herr (hpm2 ▸ hsl)
    refine ⟨hs3, ⟨?_, fun s _ => ?_, ?_⟩, by simp [herr], by simp, by simp⟩
    · exact (Quiet.pslabFreePhys p3 phys).byteAt.trans (ha.toQuiet.byteAt.trans hb2)
    · exact (congrFun (Quiet.pslabFreePhys p3 phys).pmaps s).trans
        ((congrFun ha.pmaps s).trans (congrFun hpm2 s))
    · rw [(Quiet.pslabFreePhys p3 phys).pmaps, ha.pmaps, hpm2]
      exact hnone
  · obtain ⟨q, ha, htab, hs2, rfl⟩ := rmapMap_ok hmap
    have hmq : (q.frames phys).mappings = [] := by rw [ha.frames]; exact fresh.mappings
    have hq : Sound (phys :: pins) q := h2.alike ha
    have hsq : q.pmaps (v, page) = none := by rw [ha.pmaps]; exact hs2
    have hsnd : Sound pins (q.linked (v, page) phys (region.vprot ||| VPROT_USER)) :=
      hq.link hsq htab (fun s d hd hdf => absurd hdf (hq.frame_ne hd hmq)) fun _ => hmq
    refine ⟨hsnd, ⟨?_, fun s hs => ?_, ?_⟩, by simp, fun _ => ⟨_, linked_self _⟩, fun _ _ => ?_⟩
    · refine (byteAt_linked_zero hsq ?_).trans (ha.toQuiet.byteAt.trans hb2)
      rw [ha.data, hz2]
    · rw [linked_ne _ hs, ha.pmaps, hpm2]
    · intro d hd
      rw [linked_self] at hd
      cases hd
      exact allows_region region
    · exact ⟨_, linked_self _, (setMappings_self _ phys _).trans (congrArg _ hmq)⟩

/-- What the regions of an address space allow at its pages. -/
def rightsOf (regions : List Region) (page : Nat) : Option Bool :=
  (findRegion regions page).map (writes ·.vprot)

variable {files : Files} {fuel : Nat} {regions : List Region} {access : Vprot} {exclusive : Bool}

/-- A fault on anonymous memory is over after one round of its loop. -/
theorem faultLocked_spec (h : Sound pins p) (hanon : ∀ r ∈ regions, r.Anonymous)
    (ho : Ordered Region.start Region.stop regions)
    (hr : ∀ e, p.pmaps (v, page) = some e → Allows (rightsOf regions page) e) :
    Faulted pins (v, page) (rightsOf regions page) exclusive p
      (faultLocked files fuel p v regions page access exclusive) := by
  unfold faultLocked
  cases hfd : findRegion regions page with
  | none => exact .refused h hr (by simp)
  | some region =>
    obtain ⟨hmem, -⟩ := (findRegion_eq_some_iff ho).mp hfd
    have hreg := hanon region hmem
    have hw : rightsOf regions page = some (writes region.vprot) := by simp [rightsOf, hfd]
    rw [hw] at hr ⊢
    dsimp only
    split
    · exact .refused h hr (by simp)
    rw [hreg.device]
    cases hsl : p.pmaps (v, page) with
    | none =>
      simp only [Bool.false_eq_true, if_false, faultLoop, resolve_none hsl, hreg.file,
        Option.isSome_none]
      exact faultZero_spec h hsl exclusive
    | some e =>
      cases exclusive with
      | false =>
        simp only [Bool.false_eq_true, faultLoop, h.resolve hsl, Option.isSome_some,
          Bool.not_false, Bool.and_self, if_true]
        exact ⟨h, .of_quiet .refl hr, by simp, fun _ => ⟨e, hsl⟩, by simp⟩
      | true =>
        have hun : Unshared pins (v, page) (some (writes region.vprot)) p
            (unshareLocked p v region page) := unshareLocked_spec h hsl (hr e hsl)
        have hlp : faultLoop files v region page true (fuel + 1) p =
            (some (unshareLocked p v region page).1, (unshareLocked p v region page).2) := by
          simp only [faultLoop, h.resolve hsl, Option.isSome_some, Bool.not_true, Bool.and_false,
            Bool.false_eq_true, if_false, hreg.shared, Bool.not_false, Bool.and_self, if_true]
          split
          · rename_i heq
            exact absurd (congrArg Prod.fst heq) hun.settled
          · rename_i heq
            rw [heq]
        simp only [Bool.false_eq_true, hlp]
        exact ⟨hun.sound, hun.kept, hun.settled,
          fun hok => (hun.owned hok).imp fun e he => he.1, fun hok _ => hun.owned hok⟩

end Vex.Mm
