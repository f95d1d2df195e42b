import Vex.Mm.CowRange
import Vex.Mm.MapRefinement

/-! What the calls that change region lists do to the pages of an anonymous address space: the
pages of the range are released, or their rights change, and nothing else happens. -/

namespace Vex.Mm

open Lib.Intervals

/-- What a call may assume of an address space: its list is in shape and without devices, the
sharing state is sound and its pages lie in its regions. -/
structure Private (u v : Nat) (l : List Region) (p : Pages) : Prop where
  wf : SpaceWF u l
  anonymous : ∀ x i, pageMap l x = some i → i.file = none
  sound : Sound [] p
  inside : ∀ x e, p.pmaps (v, x) = some e → pageOffset x = 0 ∧ pageMap l x ≠ none

variable {u s e v x : Nat} {l l' : List Region} {p p' : Pages} {vprot : Vprot}
  {backing : Option Backing} {r : Region}

theorem Private.region (h : Private u v l p) (hl : SpaceWF u l') (hmap : pageMap l' = pageMap l)
    (hr : r ∈ l') : r.Anonymous := by
  have hi : pageMap l' r.start = some (r.info r.start) :=
    valueAt_of_mem hl.wf.ordered hr ⟨le_rfl, hl.wf.ordered.nonempty r hr⟩
  have hfl : r.file = none := by
    have := h.anonymous _ _ (hmap ▸ hi)
    simpa [Region.info] using this
  obtain ⟨h1, -, h2⟩ := (hl.canonical _ _ hi).anonymous (by simp [Region.info, hfl])
  exact ⟨hfl, h1, h2⟩

theorem Private.page (h : Private u v l p) (hl : SpaceWF u l') (hmap : pageMap l' = pageMap l)
    (hx : p.pmaps (v, x) = some d) : ∃ r ∈ l', Has Region.start Region.stop x r ∧ x ∈ r.pages := by
  obtain ⟨hoff, hne⟩ := h.inside x d hx
  rw [← hmap] at hne
  obtain ⟨i, hi⟩ := Option.ne_none_iff_exists'.mp hne
  obtain ⟨r, hr, hxr, -⟩ := (valueAt_eq_some_iff hl.wf.ordered).mp hi
  exact ⟨r, hr, hxr, (Region.mem_pages (hl.wf.alignedStart r hr) (hl.wf.alignedStop r hr)).mpr
    ⟨hoff, hxr.1, hxr.2⟩⟩

theorem Released.of_alike (ha : Alike p p') (h : Released v gone (batch, p') s') :
    Released v gone (batch, p) s' :=
  ⟨h.sound, h.data.trans ha.data, fun slot => by
    have := h.pmaps slot
    rwa [show (batch, p').2.pmaps slot = p.pmaps slot from congrFun ha.pmaps slot] at this⟩

theorem Private.releaseAll (h : Private u v l p) :
    Released v (fun _ => True) ([], p) ([], releaseRegions v p l) := by
  have hrel : Released v (fun x => ∃ r ∈ l, x ∈ r.pages) ([], p) ([], releaseRegions v p l) :=
    releaseRegions_spec h.sound l fun r hr => (h.region h.wf rfl hr).device
  refine hrel.widen (fun _ _ => trivial) fun x _ hno => ?_
  cases hx : p.pmaps (v, x) with
  | none => rfl
  | some d =>
    obtain ⟨r, hr, -, hxr⟩ := h.page h.wf rfl hx
    exact absurd ⟨r, hr, hxr⟩ hno

/-- The pages of the regions from `s` on to `e` are those of the range. -/
theorem Private.range_pages (h : Private u v l p) (hl : SpaceWF u l')
    (hmap : pageMap l' = pageMap l)
    (hcs : ∀ r ∈ l', s ≤ r.start ∨ r.stop ≤ s) (hce : ∀ r ∈ l', e ≤ r.start ∨ r.stop ≤ e)
    {taken : List Region} (htkn : ∀ r, r ∈ taken ↔ r ∈ l' ∧ s ≤ r.start ∧ r.start < e) :
    (∀ x, (∃ r ∈ taken, x ∈ r.pages) → s ≤ x ∧ x < e) ∧
      ∀ x d, p.pmaps (v, x) = some d → s ≤ x → x < e → ∃ r ∈ taken, x ∈ r.pages := by
  constructor
  · rintro x ⟨r, hr, hxr⟩
    obtain ⟨hr, h3, h4⟩ := (htkn r).mp hr
    obtain ⟨-, h5, h6⟩ :=
      (Region.mem_pages (hl.wf.alignedStart r hr) (hl.wf.alignedStop r hr)).mp hxr
    rcases hce r hr with h7 | h7 <;> omega
  · intro x d hx h3 h4
    obtain ⟨r, hr, ⟨hlo, hhi⟩, hpgs⟩ := h.page hl hmap hx
    refine ⟨r, (htkn r).mpr ⟨hr, ?_⟩, hpgs⟩
    rcases hcs r hr with h5 | h5 <;> omega

/-- What a call with the outcome `r` does to the pages of the range, if it releases them. -/
def Releases (v s e : Nat) (p : Pages) (r : Except Errno Unit × List Region × Pages) : Prop :=
  (r.1 = .ok () → Released v (fun x => s ≤ x ∧ x < e) ([], p) ([], r.2.2)) ∧
    ∀ err, r.1 = .error err → Alike p r.2.2

theorem unmapLocked_pages (h : Private u v l p) (hs : pageOffset s = 0) (he : pageOffset e = 0) :
    Releases v s e p (unmapLocked p v l s e) := by
  have ha1 := Alike.spent p
  have ha2 := ha1.trans (.spent p.spent)
  unfold unmapLocked
  split
  · exact ⟨by simp, fun _ _ => ha1⟩
  rename_i l1 h1
  split
  · exact ⟨by simp, fun _ _ => ha2⟩
  rename_i l2 h2
  refine ⟨fun _ => ?_, by simp⟩
  obtain ⟨hwf, hmap, hcs, hce⟩ := split_split_spec h.wf hs he h1 h2
  have htkn : ∀ r, r ∈ (takeOut s e l2).2 ↔ r ∈ l2 ∧ s ≤ r.start ∧ r.start < e := by
    intro r
    rw [takeOut_eq hwf.wf.ordered, List.mem_filter, decide_eq_true_eq]
  have hrel : Released v (fun x => ∃ r ∈ (takeOut s e l2).2, x ∈ r.pages) ([], p.spent.spent)
      ([], releaseRegions v p.spent.spent (takeOut s e l2).2) :=
    releaseRegions_spec (h.sound.alike ha2) _ fun r hr =>
      (h.region hwf hmap ((htkn r).mp hr).1).device
  obtain ⟨hins, hran⟩ := h.range_pages hwf hmap hcs hce htkn
  refine (hrel.of_alike ha2).widen hins fun x hx hno => ?_
  cases hpx : p.pmaps (v, x) with
  | none => rfl
  | some d => exact absurd (hran x d hpx hx.1 hx.2) hno

theorem vmsMap_alike : Alike p (vmsMap u p l s e vprot backing).2.2 := by
  unfold vmsMap
  split
  · exact .refl
  split
  · exact .spent p
  split <;> exact .spent p

theorem vmsMapAny_alike : Alike p (vmsMapAny p l size vprot backing).2.2 := by
  unfold vmsMapAny
  split
  · exact .refl
  split
  · exact .spent p
  split <;> exact .spent p

theorem Private.alike (h : Private u v l p) (ha : Alike p p') : Private u v l p' :=
  ⟨h.wf, h.anonymous, h.sound.alike ha, by rw [ha.pmaps]; exact h.inside⟩

theorem vmsUnmap_pages (s e : Nat) (h : Private u v l p) :
    Releases v s e p (vmsUnmap u p v l s e) := by
  unfold vmsUnmap
  split
  · exact ⟨by simp, fun _ _ => .refl⟩
  rename_i hr
  have hr := validRange_of_not hr
  exact unmapLocked_pages h hr.start hr.stop

theorem vmsMapReplace_pages (s e : Nat) (vprot : Vprot) (backing : Option Backing)
    (h : Private u v l p) : Releases v s e p (vmsMapReplace u p v l s e vprot backing) := by
  unfold vmsMapReplace
  split
  · exact ⟨by simp, fun _ _ => .refl⟩
  rename_i hr
  have hr := validRange_of_not hr
  split
  · exact ⟨by simp, fun _ _ => .spent p⟩
  obtain ⟨hok, herr⟩ := unmapLocked_pages (h.alike (.spent p)) hr.start hr.stop
  rcases hun : unmapLocked p.spent v l s e with ⟨err | ⟨⟨⟩⟩, l', p'⟩ <;> rw [hun] at hok herr
  · exact ⟨by simp, fun _ _ => (Alike.spent p).trans (herr err rfl)⟩
  · exact ⟨fun _ => (hok rfl).of_alike (.spent p), by simp⟩

theorem vmsProtect_pages (s e : Nat) (vprot : Vprot) (h : Private u v l p) :
    ((vmsProtect u p v l s e vprot).1 = .ok () →
        Reprotected v (fun x => s ≤ x ∧ x < e) (Vprot.writes vprot) p
          (vmsProtect u p v l s e vprot).2.2) ∧
      ∀ err, (vmsProtect u p v l s e vprot).1 = .error err →
        Alike p (vmsProtect u p v l s e vprot).2.2 := by
  have ha1 := Alike.spent p
  have ha2 := ha1.trans (.spent p.spent)
  unfold vmsProtect
  split
  · exact ⟨by simp, fun _ _ => .refl⟩
  rename_i hr
  have hr := validRange_of_not hr
  dsimp only
  split
  · exact ⟨by simp, fun _ _ => .refl⟩
  rename_i hcov
  have hcov := (rangeCovered_iff h.wf.wf.ordered).mp (by simpa using hcov)
  split
  · exact ⟨by simp, fun _ _ => .refl⟩
  split
  · exact ⟨by simp, fun _ _ => ha1⟩
  rename_i l1 h1
  split
  · exact ⟨by simp, fun _ _ => ha2⟩
  rename_i l2 h2
  refine ⟨fun _ => ?_, by simp⟩
  obtain ⟨hwf, hmap, hcs, hce⟩ := split_split_spec h.wf hr.start hr.stop h1 h2
  have hcov2 : pageMap l2 s ≠ none := by rw [hmap]; exact hcov s le_rfl hr.lt
  have hlp : ∀ r, r ∈ (seek s l2).2.takeWhile (·.start < e) ↔
      r ∈ l2 ∧ s ≤ r.start ∧ r.start < e := fun r => mem_seek_takeWhile hwf.wf hcs hcov2
  have hpt := protectRegions_foldl (v := v) (vprot &&& ~~~VPROT_USER)
    (h.sound.alike ha2) ((seek s l2).2.takeWhile (·.start < e))
    fun r hr => h.region hwf hmap ((hlp r).mp hr).1
  rw [Vprot.writes_and_not_user] at hpt
  obtain ⟨hins, hran⟩ := h.range_pages hwf hmap hcs hce hlp
  refine ⟨hpt.sound, hpt.bytes, fun slot hs => ?_, fun x d hx hd hw => ?_, hpt.mapped⟩
  · exact hpt.others slot fun hs' => hs ⟨hs'.1, hins _ hs'.2⟩
  have hsm := hpt.mapped (v, x)
  rw [hd, Option.isSome_some, eq_comm, Option.isSome_iff_exists] at hsm
  obtain ⟨d', hd'⟩ := hsm
  exact hpt.rights x d (hran x d' hd' hx.1 hx.2) hd hw

end Vex.Mm
