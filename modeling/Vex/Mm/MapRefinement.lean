import Vex.Mm.Kernel
import Vex.Mm.RegionLemmas

/-! The region list of an address space refines a partial map from addresses to page properties.

`MapStep` says, in terms of the maps and of whether the allocator refused memory, what each call may
answer and what it then does: a call that fails changes nothing, one that succeeds changes exactly
its range. Every step of the kernel, from every state it can reach, is a `MapStep`, and the lists
keep their shape. -/

namespace Vex.Mm

open Function Kernel Option

open Lib Lib.Intervals

/-! ## What a page is mapped to -/

/-- The page at distance `d` of a new mapping. -/
def Backing.info (backing : Option Backing) (vprot : Vprot) (d : Nat) : PageInfo :=
  match backing with
  | some ⟨some file, fileOffset, shared, mayWrite, device⟩ =>
    ⟨vprot &&& ~~~VPROT_USER, some (file, fileOffset + BitVec.ofNat 64 d), shared, mayWrite, device⟩
  | _ => ⟨vprot &&& ~~~VPROT_USER, none, false, true, false⟩

/-- What every page property in use looks like: without `VPROT_USER`, and an anonymous page is
private, writable and no device. -/
structure PageInfo.Canonical (i : PageInfo) : Prop where
  user : i.vprot &&& ~~~VPROT_USER = i.vprot
  anonymous : i.file = none → i.shared = false ∧ i.mayWrite = true ∧ i.device = false

/-- A region list as the calls keep it. -/
structure SpaceWF (u : Nat) (l : List Region) : Prop where
  wf : RegionsWF u l
  canonical : ∀ x i, pageMap l x = some i → i.Canonical

variable {u : Nat} {l : List Region}

theorem VPROT_USER_idem (v : Vprot) :
    v &&& ~~~VPROT_USER &&& ~~~VPROT_USER = v &&& ~~~VPROT_USER := by
  rw [BitVec.and_assoc, BitVec.and_self]

theorem allocRegion_info (s e x : Nat) (vprot : Vprot) (backing : Option Backing) :
    (allocRegion s e vprot backing).info x = Backing.info backing vprot (x - s) := by
  rcases backing with _ | ⟨_ | f, o, sh, mw, d⟩ <;> rfl

@[simp] theorem allocRegion_start (s e : Nat) (vprot : Vprot) (backing : Option Backing) :
    (allocRegion s e vprot backing).start = s := by
  rcases backing with _ | ⟨_ | f, o, sh, mw, d⟩ <;> rfl

@[simp] theorem allocRegion_stop (s e : Nat) (vprot : Vprot) (backing : Option Backing) :
    (allocRegion s e vprot backing).stop = e := by
  rcases backing with _ | ⟨_ | f, o, sh, mw, d⟩ <;> rfl

theorem Backing.info_canonical (backing : Option Backing) (vprot : Vprot) (d : Nat) :
    (Backing.info backing vprot d).Canonical := by
  rcases backing with _ | ⟨_ | f, o, sh, mw, d⟩
  · exact ⟨VPROT_USER_idem vprot, fun _ => ⟨rfl, rfl, rfl⟩⟩
  · exact ⟨VPROT_USER_idem vprot, fun _ => ⟨rfl, rfl, rfl⟩⟩
  · exact ⟨VPROT_USER_idem vprot, fun h => by cases h⟩

/-- Cloning a region of a space in use gives the same pages: what `alloc_region` resets of an
anonymous region is what it has anyway. -/
theorem cloneRegion_info (h : SpaceWF u l) (hr : r ∈ l) : (cloneRegion r).info = r.info := by
  have hne := h.wf.ordered.nonempty r hr
  obtain ⟨huser, hanon⟩ := h.canonical r.start _
    (valueAt_of_mem h.wf.ordered hr ⟨le_rfl, hne⟩)
  funext x
  rcases r with ⟨s, e, vp, _ | f, o, sh, mw, d⟩
  · obtain ⟨h1, h2, h3⟩ := hanon rfl
    simp only [Region.info] at h1 h2 h3 huser
    subst h1 h2 h3
    simp [cloneRegion, allocRegion, Region.info, huser]
  · simp only [Region.info] at huser
    simp [cloneRegion, allocRegion, huser]

theorem cloneRegion_map_spec (h : SpaceWF u l) :
    RegionsWF u (l.map cloneRegion) ∧ pageMap (l.map cloneRegion) = pageMap l := by
  have hs : ∀ r, (cloneRegion r).start = r.start := fun r => allocRegion_start ..
  have he : ∀ r, (cloneRegion r).stop = r.stop := fun r => allocRegion_stop ..
  refine ⟨h.wf.map hs he, funext fun x => ?_⟩
  rw [pageMap, valueAt_map (fun r _ => hs r) fun r _ => he r]
  exact valueAt_congr fun r hr _ => by rw [cloneRegion_info h hr]

/-! ## The abstract steps -/

/-- A partial map from addresses to page properties. -/
abbrev PMap := Nat → Option PageInfo

/-- The map with the addresses of `[s, e)` given by `g`. -/
def PMap.onRange (f : PMap) (s e : Nat) (g : PMap) : PMap :=
  fun x => if s ≤ x ∧ x < e then g x else f x

/-- The map of every address space that exists. -/
abbrev Maps := Nat → Option PMap

def Kernel.maps (k : Kernel) : Maps := fun v => (k.spaces v).map pageMap

/-- A range that a call accepts: aligned, not empty and in user space. -/
structure ValidRange (u s e : Nat) : Prop where
  start : pageOffset s = 0
  stop : pageOffset e = 0
  lt : s < e
  le : e ≤ u

/-- The last answer that a call took from the allocator was a refusal. -/
def Refused (p p' : Pages) : Prop := (none :: p'.supply) <:+ p.supply ∨ p'.supply = []

section
variable (short : Prop) (u : Nat) (m : Maps)

/-- What a call may answer and do to the maps; `short` is that the allocator refused memory. -/
inductive MapStep : Op → Except Errno Nat → Maps → Prop
  | createNoMem : short → m v = none → MapStep (.create v) (.error .ENOMEM) m
  | create : m v = none → MapStep (.create v) (.ok 0) (update m v (some fun _ => none))
  | release : m v = some f → MapStep (.release v) (.ok 0) (update m v none)
  | mapInvalid : ¬ValidRange u s e → MapStep (.map v s e vprot b) (.error .EINVAL) m
  | mapNoMem : short → ValidRange u s e → MapStep (.map v s e vprot b) (.error .ENOMEM) m
  | mapExists : ValidRange u s e → m v = some f → s ≤ x → x < e → f x ≠ none →
      MapStep (.map v s e vprot b) (.error .EEXIST) m
  | map : ValidRange u s e → m v = some f → (∀ x, s ≤ x → x < e → f x = none) →
      MapStep (.map v s e vprot b) (.ok 0)
        (update m v (some (f.onRange s e fun x => some (Backing.info b vprot (x - s)))))
  | replaceInvalid : ¬ValidRange u s e → MapStep (.mapReplace v s e vprot b) (.error .EINVAL) m
  | replaceNoMem : short → ValidRange u s e →
      MapStep (.mapReplace v s e vprot b) (.error .ENOMEM) m
  | replace : ValidRange u s e → m v = some f → MapStep (.mapReplace v s e vprot b) (.ok 0)
      (update m v (some (f.onRange s e fun x => some (Backing.info b vprot (x - s)))))
  | anyInvalid : size = 0 ∨ pageOffset size ≠ 0 →
      MapStep (.mapAny v size vprot b) (.error .EINVAL) m
  | anyNoMem : m v = some f → (short ∨ ∀ a, VMS_MMAP_MIN ≤ a → a + size ≤ VMS_MMAP_TOP →
        ∃ x, a ≤ x ∧ x < a + size ∧ f x ≠ none) →
      MapStep (.mapAny v size vprot b) (.error .ENOMEM) m
  | any : ValidRange u a (a + size) → VMS_MMAP_MIN ≤ a → a + size ≤ VMS_MMAP_TOP →
      m v = some f → (∀ x, a ≤ x → x < a + size → f x = none) →
      MapStep (.mapAny v size vprot b) (.ok a) (update m v
        (some (f.onRange a (a + size) fun x => some (Backing.info b vprot (x - a)))))
  | unmapInvalid : ¬ValidRange u s e → MapStep (.unmap v s e) (.error .EINVAL) m
  | unmapNoMem : short → ValidRange u s e → MapStep (.unmap v s e) (.error .ENOMEM) m
  | unmap : ValidRange u s e → m v = some f →
      MapStep (.unmap v s e) (.ok 0) (update m v (some (f.onRange s e fun _ => none)))
  | protectInvalid : ¬ValidRange u s e → MapStep (.protect v s e vprot) (.error .EINVAL) m
  | protectNoMem : ValidRange u s e → m v = some f → (short ∨ ∃ x, s ≤ x ∧ x < e ∧ f x = none) →
      MapStep (.protect v s e vprot) (.error .ENOMEM) m
  | protectDenied : ValidRange u s e → Vprot.writes vprot = true → m v = some f → s ≤ x → x < e →
      f x = some i → i.mayWrite = false → MapStep (.protect v s e vprot) (.error .EACCES) m
  | protect : ValidRange u s e → m v = some f → (∀ x, s ≤ x → x < e → f x ≠ none) →
      (Vprot.writes vprot = true → ∀ x i, s ≤ x → x < e → f x = some i → i.mayWrite = true) →
      MapStep (.protect v s e vprot) (.ok 0) (update m v (some (f.onRange s e fun x =>
        (f x).map ({ · with vprot := vprot &&& ~~~VPROT_USER }))))
  | unmapAll : m v = some f → MapStep (.unmapAll v) (.ok 0) (update m v (some fun _ => none))
  | cloneFailed : err = .EEXIST ∨ short → MapStep (.clone child source) (.error err) m
  | clone : m child = some (fun _ => none) → m source = some f →
      MapStep (.clone child source) (.ok 0) (update m child (some f))
  | fault : MapStep (.fault v virt access) ret m
  | touch : MapStep (.touch v virt bytes) ret m
  | copyin : MapStep (.copyin v src size current) ret m
  | copyout : MapStep (.copyout v dst src' current) ret m
  | load : MapStep (.load v virt) ret m
  | store : MapStep (.store v virt byte) ret m

end

/-! ## What a call takes from the allocator -/

/-- What a call has taken from the allocator when it returns. -/
def Asked (p : Pages) (ret : Except Errno Unit) (q : Pages) : Prop :=
  q.supply <:+ p.supply ∧ ∀ err, ret = .error err → err = .EEXIST ∨ Refused p q

theorem Refused.spent (h : p.answer.isNone) : Refused p p.spent := by
  unfold Pages.answer at h
  unfold Refused Pages.spent
  cases hs : p.supply with
  | nil => exact .inr rfl
  | cons a rest => cases a <;> simp_all

theorem spent_suffix (p : Pages) : p.spent.supply <:+ p.supply := List.tail_suffix _

theorem Refused.after (h : Refused q q') (hq : q.supply <:+ p.supply) : Refused p q' :=
  h.imp_left (·.trans hq)

theorem Refused.spent_spent (h : p.spent.answer.isNone) : Refused p p.spent.spent :=
  .after (.spent h) (spent_suffix p)

theorem Asked.after (h : Asked q ret q') (hq : q.supply <:+ p.supply) : Asked p ret q' :=
  ⟨h.1.trans hq, fun err herr => (h.2 err herr).imp_right (·.after hq)⟩

theorem Asked.of_supply (h : Asked p ret q) (hs : q'.supply = q.supply) : Asked p ret q' := by
  simpa only [Asked, Refused, hs] using h

theorem rmapMap_asked (h : rmapMap p slot f vprot = (ret, q)) : Asked p ret q := by
  have hfst := @Refused.spent p
  have hsecond : ¬p.spent.answer.isSome → Refused p p.spent.spent := fun hno =>
    .spent_spent (by simpa using hno)
  have hspent := spent_suffix p
  have hspent' := (spent_suffix p.spent).trans hspent
  unfold rmapMap pmapMap pmentryWalk at h
  simp only [Asked, Refused] at *
  grind [Pages.setFrame, Pages.setEntry, Pages.setMappings]

theorem putFrame_supply (p : Pages) (f : Nat) : (putFrame p f).supply = p.supply := by
  unfold putFrame pframeDecref pslabFreePhys
  grind [Pages.setFrame]

theorem clonePage_asked (h : clonePage child source it p page = (ret, q)) : Asked p ret q := by
  have hpin : (rmapPin p (source, page)).2.supply = p.supply := by
    unfold rmapPin
    split <;> rfl
  unfold clonePage at h
  dsimp only at h
  split at h <;> rw [‹rmapPin _ _ = _›] at hpin
  · cases h
    exact ⟨⟨[], hpin⟩, nofun⟩
  refine .after ?_ ⟨[], hpin⟩
  split at h
  next hmap =>
    cases h
    exact (rmapMap_asked hmap).of_supply (putFrame_supply ..)
  next hmap =>
    have hok := rmapMap_asked hmap
    split at h <;> cases h
    · refine hok.of_supply ?_
      unfold pmapPatchNoflush
      split <;> rfl
    · exact hok

theorem clonePages_asked (h : clonePages child source it ps p = (ret, q)) : Asked p ret q := by
  induction ps generalizing p with
  | nil =>
    cases h
    exact ⟨List.suffix_rfl, nofun⟩
  | cons page rest ih =>
    rw [clonePages] at h
    split at h
    next hpg =>
      cases h
      exact clonePage_asked hpg
    next hpg => exact (ih h).after (clonePage_asked hpg).1

theorem cloneRegions_asked (h : cloneRegions child source l done p = (ret, l', q)) :
    Asked p ret q := by
  induction l generalizing done p with
  | nil =>
    cases h
    exact ⟨List.suffix_rfl, nofun⟩
  | cons it rest ih =>
    rw [cloneRegions] at h
    split at h
    case isTrue hno =>
      cases h
      exact ⟨spent_suffix p, fun _ _ => .inr (.spent hno)⟩
    split at h
    · exact (ih h).after (spent_suffix p)
    refine .after ?_ (spent_suffix p)
    split at h
    next hpgs =>
      cases h
      exact clonePages_asked hpgs
    next hpgs => exact (ih h).after (clonePages_asked hpgs).1

theorem foldl_supply {f : β → α → β} (g : β → Pages)
    (hf : ∀ s a, (g (f s a)).supply = (g s).supply) (l : List α) (s : β) :
    (g (l.foldl f s)).supply = (g s).supply := by
  induction l generalizing s with
  | nil => rfl
  | cons a l ih => exact (ih _).trans (hf s a)

theorem freeBatch_supply (p : Pages) (batch : List Nat) : (freeBatch p batch).supply = p.supply :=
  foldl_supply id putFrame_supply batch p

theorem releasePage_supply (v : Nat) (s : List Nat × Pages) (page : Nat) :
    (releasePage v s page).2.supply = s.2.supply := by
  have hunmap : (rmapUnmap s.2 (v, page)).2.supply = s.2.supply := by
    unfold rmapUnmap unlinkEntry pmapUnmapNoflush
    grind [Pages.setFrame, Pages.setEntry, Pages.setMappings]
  unfold releasePage
  grind [freeBatch_supply]

theorem releaseRegions_supply (v : Nat) (p : Pages) (l : List Region) :
    (releaseRegions v p l).supply = p.supply := by
  refine (freeBatch_supply ..).trans (foldl_supply Prod.snd (fun s it => ?_) l ([], p))
  unfold releasePages
  split
  · refine foldl_supply id (fun q page => ?_) it.pages s.2
    unfold pmapUnmapNoflush
    split <;> rfl
  · exact foldl_supply Prod.snd (releasePage_supply v) it.pages s

/-! ## Each call is an abstract step -/

variable {s e v : Nat} {l' : List Region} {p : Pages} {vprot : Vprot} {m : Maps}

theorem SpaceWF.nil : SpaceWF u [] := ⟨.nil, by simp [pageMap]⟩

theorem SpaceWF.of_map_eq (h : SpaceWF u l) (wf : RegionsWF u l') (hm : pageMap l' = pageMap l) :
    SpaceWF u l' :=
  ⟨wf, fun x i hi => h.canonical x i (hm ▸ hi)⟩

theorem SpaceWF.of_onRange (h : SpaceWF u l) (wf : RegionsWF u l')
    (hm : pageMap l' = PMap.onRange (pageMap l) s e g) (hg : ∀ x i, g x = some i → i.Canonical) :
    SpaceWF u l' := by
  refine ⟨wf, fun x i hi => ?_⟩
  rw [hm, PMap.onRange] at hi
  split at hi
  · exact hg x i hi
  · exact h.canonical x i hi

theorem rangeValid_eq : rangeValid u s e = true ↔ ValidRange u s e :=
  rangeValid_iff.trans ⟨fun ⟨h1, h2, h3, h4⟩ => ⟨h1, h2, h3, h4⟩,
    fun ⟨h1, h2, h3, h4⟩ => ⟨h1, h2, h3, h4⟩⟩

theorem not_validRange (h : (!rangeValid u s e) = true) : ¬ValidRange u s e := by
  rw [← rangeValid_eq]
  simpa using h

theorem validRange_of_not (h : ¬(!rangeValid u s e) = true) : ValidRange u s e := by
  rw [← rangeValid_eq]
  simpa using h

/-- The call answers and changes the list of `v` as an abstract step. -/
structure Follows (p : Pages) (u : Nat) (m : Maps) (v : Nat) (op : Op)
    (r : Except Errno Nat × List Region × Pages) : Prop where
  wf : SpaceWF u r.2.1
  step : MapStep (Refused p r.2.2) u m op r.1 (update m v (some (pageMap r.2.1)))

theorem Maps.update_same (hm : m v = some f) : update m v (some f) = m := by
  rw [← hm, update_eq_self]

theorem Follows.failed (h : SpaceWF u l') (hm : m v = some (pageMap l))
    (hmap : pageMap l' = pageMap l) (hst : MapStep (Refused p p') u m op (.error err) m) :
    Follows p u m v op (.error err, l', p') := by
  refine ⟨h, ?_⟩
  simp only [hmap, Maps.update_same hm]
  exact hst

theorem insert_alloc_spec (h : SpaceWF u l) (hr : ValidRange u s e) (hfree : rangeFree s e l = true)
    (vprot : Vprot) (b : Option Backing) :
    SpaceWF u (insertRegion (allocRegion s e vprot b) l) ∧
      pageMap (insertRegion (allocRegion s e vprot b) l) =
        PMap.onRange (pageMap l) s e fun x => some (Backing.info b vprot (x - s)) := by
  obtain ⟨hwf, hmap⟩ := insertRegion_spec (allocRegion s e vprot b) h.wf
    (by simpa using hr.lt) (by simpa using hr.start) (by simpa using hr.stop)
    (by simpa using hr.le) (by simpa using hfree)
  simp only [allocRegion_start, allocRegion_stop, allocRegion_info] at hmap
  refine ⟨h.of_onRange hwf hmap fun x i hi => ?_, hmap⟩
  cases hi
  exact Backing.info_canonical ..

variable {l1 l2 : List Region}

/-- Two splits in a row: the same map, cut at both ends. -/
theorem split_split_spec (h : SpaceWF u l) (hs : pageOffset s = 0) (he : pageOffset e = 0)
    (h1 : splitRegion slab l s = .ok l1) (h2 : splitRegion slab' l1 e = .ok l2) :
    SpaceWF u l2 ∧ pageMap l2 = pageMap l ∧ CutAt Region.start Region.stop s l2 ∧
      CutAt Region.start Region.stop e l2 := by
  have spec1 := splitRegion_spec h.wf hs h1
  have spec2 := splitRegion_spec spec1.wf he h2
  have hmap := spec2.map.trans spec1.map
  exact ⟨h.of_map_eq spec2.wf hmap, hmap, spec2.keeps _ spec1.cut, spec2.cut⟩

/-- `unmap_locked` empties the range, or has no memory for a split and leaves the map. -/
theorem unmapLocked_spec (h : SpaceWF u l) (hs : pageOffset s = 0) (he : pageOffset e = 0)
    (hun : unmapLocked p v l s e = (ret, l', p')) :
    SpaceWF u l' ∧ (ret = .ok () ∧ pageMap l' = PMap.onRange (pageMap l) s e (fun _ => none) ∨
      ret = .error .ENOMEM ∧ pageMap l' = pageMap l ∧ Refused p p') := by
  unfold unmapLocked at hun
  split at hun
  · rename_i h1
    obtain ⟨rfl, hno⟩ := splitRegion_error h1
    cases hun
    exact ⟨h, .inr ⟨rfl, rfl, .spent (by simpa using hno)⟩⟩
  rename_i l1 h1
  have spec1 := splitRegion_spec h.wf hs h1
  split at hun
  · rename_i h2
    obtain ⟨rfl, hno⟩ := splitRegion_error h2
    cases hun
    exact ⟨h.of_map_eq spec1.wf spec1.map,
      .inr ⟨rfl, spec1.map, .spent_spent (by simpa using hno)⟩⟩
  rename_i l2 h2
  cases hun
  obtain ⟨h2wf, hmap, hcs, hce⟩ := split_split_spec h hs he h1 h2
  obtain ⟨hwf, htk⟩ := takeOut_spec h2wf.wf hcs hce
  rw [hmap] at htk
  exact ⟨h.of_onRange hwf htk nofun, .inl ⟨rfl, htk⟩⟩

/-- The loop keeps a place it found until there is a higher one, and misses none ahead of it. -/
theorem highestGapFrom_ge {g x : Nat} {found : Option Nat} (hl : ∀ r ∈ l, r.start < r.stop)
    (hsz : 0 < size) (hx : (∃ z, found = some z ∧ x ≤ z ∧ z ≤ g) ∨
      g ≤ x ∧ x + size ≤ VMS_MMAP_TOP ∧ ∀ r ∈ l, r.stop ≤ x ∨ x + size ≤ r.start) :
    ∃ y, highestGapFrom size g found l = some y ∧ x ≤ y := by
  induction l generalizing g found with
  | nil =>
    rw [highestGapFrom]
    split
    · exact ⟨_, rfl, by omega⟩
    · grind
  | cons it rest ih =>
    obtain ⟨hit, hrs⟩ := List.forall_mem_cons.mp hl
    simp only [highestGapFrom, List.forall_mem_cons] at hx ⊢
    generalize hsp : (if it.start < VMS_MMAP_TOP then it.start else VMS_MMAP_TOP) = stop
    generalize hfnd : (if stop > g ∧ stop - g ≥ size then some (stop - size) else found) = found'
    -- the room is ahead of `it` still, or at most the place that is known by now
    obtain ⟨z, rfl, hz⟩ | ⟨hsta, hnx, hrm⟩ :
        (∃ z, found' = some z ∧ x ≤ z ∧ z ≤ max it.stop g) ∨
          it.start < VMS_MMAP_TOP ∧ max it.stop g ≤ x ∧
            x + size ≤ VMS_MMAP_TOP ∧ ∀ r ∈ rest, r.stop ≤ x ∨ x + size ≤ r.start := by
      grind
    · split
      · exact ⟨z, rfl, hz.1⟩
      · exact ih hrs (.inl ⟨z, rfl, hz.1, by split <;> omega⟩)
    · rw [if_neg (by omega)]
      exact ih hrs (.inr ⟨by split <;> omega, hrm⟩)

theorem findHighestGap_of_room {x : Nat} (wf : RegionsWF u l) (hsz : 0 < size)
    (hmin : VMS_MMAP_MIN ≤ x) (htop : x + size ≤ VMS_MMAP_TOP)
    (hfree : ∀ y, x ≤ y → y < x + size → pageMap l y = none) :
    ∃ y, findHighestGap l size = some y ∧ x ≤ y := by
  refine highestGapFrom_ge wf.ordered.nonempty hsz (.inr ⟨hmin, htop, ?_⟩)
  exact (rangeFree_iff wf.ordered).mp ((rangeFree_iff_pageMap wf.ordered (by omega)).mpr hfree)

section
variable (h : SpaceWF u l) (hm : m v = some (pageMap l))
include h hm

theorem vmsMap_spec (b : Option Backing) :
    Follows p u m v (.map v s e vprot b) (unit (vmsMap u p l s e vprot b)) := by
  unfold vmsMap
  split
  case isTrue hr => exact .failed h hm rfl (.mapInvalid (not_validRange hr))
  rename_i hr
  have hr := validRange_of_not hr
  split
  case isTrue hno => exact .failed h hm rfl (.mapNoMem (.spent hno) hr)
  split
  · rename_i hfree
    have hfree : ¬rangeFree s e l = true := by simpa using hfree
    rw [rangeFree_iff_pageMap h.wf.ordered hr.lt] at hfree
    push Not at hfree
    obtain ⟨x, h1, h2, h3⟩ := hfree
    exact .failed h hm rfl (.mapExists hr hm h1 h2 h3)
  · rename_i hfree
    have hfree : rangeFree s e l = true := by simpa using hfree
    obtain ⟨hwf, hmap⟩ := insert_alloc_spec h hr hfree vprot b
    refine ⟨hwf, ?_⟩
    simp only [unit, hmap]
    exact .map hr hm ((rangeFree_iff_pageMap h.wf.ordered hr.lt).mp hfree)

theorem vmsMapReplace_spec (b : Option Backing) :
    Follows p u m v (.mapReplace v s e vprot b) (unit (vmsMapReplace u p v l s e vprot b)) := by
  unfold vmsMapReplace
  split
  case isTrue hr => exact .failed h hm rfl (.replaceInvalid (not_validRange hr))
  rename_i hr
  have hr := validRange_of_not hr
  split
  case isTrue hno => exact .failed h hm rfl (.replaceNoMem (.spent hno) hr)
  rcases hun : unmapLocked p.spent v l s e with ⟨ret, l', p'⟩
  obtain ⟨hwf, ⟨rfl, hmap⟩ | ⟨rfl, hmap, hno⟩⟩ := unmapLocked_spec h hr.start hr.stop hun
  · have hfree : rangeFree s e l' = true := by
      rw [rangeFree_iff_pageMap hwf.wf.ordered hr.lt, hmap]
      exact fun x h1 h2 => if_pos ⟨h1, h2⟩
    obtain ⟨hwf', hmap'⟩ := insert_alloc_spec hwf hr hfree vprot b
    have hover : ∀ g g' : PMap, (PMap.onRange (PMap.onRange (pageMap l) s e g) s e g') =
        PMap.onRange (pageMap l) s e g' := by
      intro g g'
      funext x
      simp only [PMap.onRange]
      split <;> rfl
    refine ⟨hwf', ?_⟩
    simp only [unit, hmap', hmap, hover]
    exact .replace hr hm
  · exact .failed hwf hm hmap (.replaceNoMem (hno.after (spent_suffix p)) hr)

theorem vmsMapAny_spec (hu : VMS_MMAP_TOP ≤ u) (size : Nat) (b : Option Backing) :
    Follows p u m v (.mapAny v size vprot b) (vmsMapAny p l size vprot b) := by
  unfold vmsMapAny
  split
  case isTrue hsz => exact .failed h hm rfl (.anyInvalid hsz)
  rename_i hsz
  split
  case isTrue hno => exact .failed h hm rfl (.anyNoMem hm (.inl (.spent hno)))
  cases hgap : findHighestGap l size with
  | none =>
    refine .failed h hm rfl (.anyNoMem hm (.inr fun a hmin htop => ?_))
    by_contra hfree
    push Not at hfree
    obtain ⟨y, hy, -⟩ := findHighestGap_of_room h.wf (by omega) hmin htop hfree
    cases hgap.symm.trans hy
  | some a =>
    have hoff : pageOffset size = 0 := by by_contra hno; exact hsz (.inr hno)
    have gap := findHighestGap_gap h.wf hoff hgap
    have hr : ValidRange u a (a + size) := by
      refine ⟨gap.aligned, ?_, by omega, gap.below.trans hu⟩
      have := gap.aligned
      simp only [pageOffset, PAGE_SIZE] at this hoff ⊢
      omega
    have hfree := (rangeFree_iff h.wf.ordered).mpr gap.free
    obtain ⟨hwf, hmap⟩ := insert_alloc_spec h hr hfree vprot b
    refine ⟨hwf, ?_⟩
    simp only [hmap]
    exact .any hr gap.above gap.below hm ((rangeFree_iff_pageMap h.wf.ordered hr.lt).mp hfree)

theorem vmsUnmap_spec : Follows p u m v (.unmap v s e) (unit (vmsUnmap u p v l s e)) := by
  unfold vmsUnmap
  split
  case isTrue hr => exact .failed h hm rfl (.unmapInvalid (not_validRange hr))
  rename_i hr
  have hr := validRange_of_not hr
  rcases hun : unmapLocked p v l s e with ⟨ret, l', p'⟩
  obtain ⟨hwf, ⟨rfl, hmap⟩ | ⟨rfl, hmap, hno⟩⟩ := unmapLocked_spec h hr.start hr.stop hun
  · refine ⟨hwf, ?_⟩
    simp only [unit, hmap]
    exact .unmap hr hm
  · exact .failed hwf hm hmap (.unmapNoMem hno hr)

theorem vmsProtect_spec :
    Follows p u m v (.protect v s e vprot) (unit (vmsProtect u p v l s e vprot)) := by
  unfold vmsProtect
  split
  case isTrue hr => exact .failed h hm rfl (.protectInvalid (not_validRange hr))
  rename_i hr
  have hr := validRange_of_not hr
  dsimp only
  split
  · rename_i hcov
    have hcov : ¬rangeCovered l s e = true := by simpa using hcov
    rw [rangeCovered_iff h.wf.ordered] at hcov
    push Not at hcov
    exact .failed h hm rfl (.protectNoMem hr hm (.inr hcov))
  rename_i hcov
  have hcov := (rangeCovered_iff h.wf.ordered).mp (by simpa using hcov)
  have hforbid := writeForbidden_seek_iff h.wf.ordered hcov hr.lt
  rw [Vprot.writes_and_not_user]
  split
  · rename_i hdeny
    obtain ⟨hw, hno⟩ := Bool.and_eq_true_iff.mp hdeny
    obtain ⟨x, i, h1, h2, h3, h4⟩ := hforbid.mp hno
    exact .failed h hm rfl (.protectDenied hr hw hm h1 h2 h3 h4)
  rename_i halw
  split
  · rename_i h1
    obtain ⟨rfl, hno⟩ := splitRegion_error h1
    exact .failed h hm rfl (.protectNoMem hr hm (.inl (.spent (by simpa using hno))))
  rename_i l1 h1
  have spec1 := splitRegion_spec h.wf hr.start h1
  split
  · rename_i h2
    obtain ⟨rfl, hno⟩ := splitRegion_error h2
    exact .failed (h.of_map_eq spec1.wf spec1.map) hm spec1.map
      (.protectNoMem hr hm (.inl (.spent_spent (by simpa using hno))))
  rename_i l2 h2
  obtain ⟨h2wf, hmap, hcs, hce⟩ := split_split_spec h hr.start hr.stop h1 h2
  have hcs' : pageMap l2 s ≠ none := by rw [hmap]; exact hcov s le_rfl hr.lt
  obtain ⟨hwf, hpt⟩ := protect_spec h2wf.wf hcs hce hcs' (vprot &&& ~~~VPROT_USER)
  rw [hmap] at hpt
  refine ⟨h.of_onRange hwf hpt fun x i hi => ?_, ?_⟩
  · obtain ⟨j, hj, rfl⟩ := map_eq_some_iff.mp hi
    exact ⟨VPROT_USER_idem vprot, (h.canonical x j hj).anonymous⟩
  simp only [unit, hpt]
  refine .protect hr hm hcov fun hw x i h3 h4 h5 => ?_
  by_contra hno
  exact halw (Bool.and_eq_true_iff.mpr ⟨hw, hforbid.mpr ⟨x, i, h3, h4, h5, by simpa using hno⟩⟩)

end

theorem cloneRegions_ok (h : cloneRegions child source l done p = (.ok (), l', p')) :
    l' = done ++ l.map cloneRegion := by
  induction l generalizing done p with
  | nil =>
    simp only [cloneRegions, Prod.mk.injEq] at h
    simp [h.2.1]
  | cons it rest ih =>
    rw [cloneRegions] at h
    split at h
    · simp at h
    split at h
    · simpa using ih h
    split at h
    · simp at h
    · simpa using ih h

theorem vmsClone_spec (h : SpaceWF u l) (hm : m source = some (pageMap l))
    (hc : m child = some fun _ => none) :
    Follows p u m child (.clone child source) (unit (vmsClone p child source l)) := by
  unfold vmsClone
  rcases hcl : cloneRegions child source l [] p with ⟨_ | ⟨⟨⟩⟩, l', p'⟩
  · exact .failed (l := []) .nil hc rfl
      (.cloneFailed (((cloneRegions_asked hcl).of_supply (releaseRegions_supply ..)).2 _ rfl))
  obtain ⟨hwf, hmap⟩ := cloneRegion_map_spec h
  have hl := cloneRegions_ok hcl
  rw [List.nil_append] at hl
  subst hl
  refine ⟨h.of_map_eq hwf hmap, ?_⟩
  simp only [unit, hmap]
  exact .clone hc hm

/-! ## Every run -/

variable {k k' : Kernel} {files : Files} {fuel : Nat} {op : Op} {out : Out}

/-- Every address space of the kernel is in shape. -/
def Kernel.SpacesWF (k : Kernel) : Prop := ∀ v l, k.spaces v = some l → SpaceWF k.userEnd l

theorem Kernel.maps_update (k : Kernel) (p : Pages) (v : Nat) (l : Option (List Region)) :
    maps { k with spaces := update k.spaces v l, pages := p } =
      update k.maps v (l.map pageMap) := by
  funext w
  by_cases hw : w = v
  · subst hw; simp [maps]
  · simp [maps, hw]

theorem Kernel.SpacesWF.update (h : k.SpacesWF) {l : Option (List Region)}
    (hl : ∀ l', l = some l' → SpaceWF k.userEnd l') (p : Pages) (v : Nat) :
    Kernel.SpacesWF { k with spaces := update k.spaces v l, pages := p } := by
  intro w l' hw
  by_cases hwv : w = v
  · subst hwv
    exact hl l' (by simpa using hw)
  · simp only [update_of_ne hwv] at hw
    exact h w l' hw

theorem Follows.put {r : Except Errno Nat × List Region × Pages} (h : k.SpacesWF)
    (hf : Follows k.pages k.userEnd k.maps v op r) (hst : k.put v r = (out, k')) :
    MapStep (Refused k.pages k'.pages) k.userEnd k.maps op out.ret k'.maps ∧ k'.SpacesWF := by
  cases hst
  rw [maps_update]
  exact ⟨hf.step, h.update (fun l hl => some.inj hl ▸ hf.wf) r.2.2 v⟩

theorem Kernel.step_mapStep (h : k.SpacesWF) (hst : k.step files fuel op = some (out, k')) :
    MapStep (Refused k.pages k'.pages) k.userEnd k.maps op out.ret k'.maps ∧ k'.SpacesWF := by
  have hmaps : ∀ {v l}, k.spaces v = some l → k.maps v = some (pageMap l) := by
    intro v l hv
    simp [maps, hv]
  cases op with
  | create v =>
    simp only [step] at hst
    split at hst
    · cases hst
    rename_i hv
    have hv : k.maps v = none := by simpa [maps] using hv
    split at hst <;> cases hst
    · rename_i hno
      exact ⟨.createNoMem (.spent hno) hv, h⟩
    · rw [maps_update]
      exact ⟨.create hv, h.update (fun l hl => some.inj hl ▸ .nil) _ v⟩
  | release v =>
    obtain ⟨l, hl, ⟨⟩⟩ := map_eq_some_iff.mp hst
    rw [maps_update]
    exact ⟨.release (hmaps hl), h.update (fun _ hl => by cases hl) _ v⟩
  | map v s e vprot b =>
    obtain ⟨l, hl, heq⟩ := map_eq_some_iff.mp hst
    exact (vmsMap_spec (h v l hl) (hmaps hl) b).put h heq
  | mapReplace v s e vprot b =>
    obtain ⟨l, hl, heq⟩ := map_eq_some_iff.mp hst
    exact (vmsMapReplace_spec (h v l hl) (hmaps hl) b).put h heq
  | mapAny v size vprot b =>
    obtain ⟨l, hl, heq⟩ := map_eq_some_iff.mp hst
    exact (vmsMapAny_spec (h v l hl) (hmaps hl) (mmapTop_le_userEnd k.mode) size b).put h heq
  | unmap v s e =>
    obtain ⟨l, hl, heq⟩ := map_eq_some_iff.mp hst
    exact (vmsUnmap_spec (h v l hl) (hmaps hl)).put h heq
  | protect v s e vprot =>
    obtain ⟨l, hl, heq⟩ := map_eq_some_iff.mp hst
    exact (vmsProtect_spec (h v l hl) (hmaps hl)).put h heq
  | unmapAll v =>
    obtain ⟨l, hl, heq⟩ := map_eq_some_iff.mp hst
    exact Follows.put h ⟨.nil, .unmapAll (hmaps hl)⟩ heq
  | clone child source =>
    simp only [step] at hst
    split at hst
    · rename_i hc
      obtain ⟨l, hl, heq⟩ := map_eq_some_iff.mp hst
      exact (vmsClone_spec (h source l hl) (hmaps hl) (hmaps hc)).put h heq
    · cases hst
  | fault v virt access =>
    obtain ⟨l, hl, ⟨⟩⟩ := map_eq_some_iff.mp hst
    exact ⟨.fault, h⟩
  | touch v virt bytes =>
    obtain ⟨l, hl, heq⟩ := map_eq_some_iff.mp hst
    split at heq <;> cases heq <;> exact ⟨.touch, h⟩
  | copyin v src size current =>
    obtain ⟨l, hl, ⟨⟩⟩ := map_eq_some_iff.mp hst
    exact ⟨.copyin, h⟩
  | copyout v dst src current =>
    obtain ⟨l, hl, ⟨⟩⟩ := map_eq_some_iff.mp hst
    exact ⟨.copyout, h⟩
  | load v virt =>
    obtain ⟨entry, -, ⟨⟩⟩ := map_eq_some_iff.mp hst
    exact ⟨.load, h⟩
  | store v virt byte =>
    obtain ⟨entry, -, ⟨⟩⟩ := map_eq_some_iff.mp hst
    exact ⟨.store, h⟩

theorem Kernel.init_spacesWF (mode : Nat) (supply : List (Option Nat)) :
    (init mode supply).SpacesWF := fun v l h => by cases h

/-- In every reachable state the region lists are in shape. -/
theorem Kernel.run_spacesWF {mode : Nat}
    (h : Run (Fires (step files fuel)) (.init mode supply) as k) : k.SpacesWF :=
  h.invariant (I := Kernel.SpacesWF) (fun h hs => (step_mapStep h hs).2)
    (init_spacesWF mode supply)

/-- **Refinement of the region lists.** In every state any calls can reach, with any answers of
the allocator and any file layer, the lists are sorted lists of non-empty, aligned, disjoint
regions in user space, and whatever is called next does to the maps what `MapStep` says. -/
theorem regions_refine_map {mode : Nat} {supply : List (Option Nat)} {as : List (Op × Out)}
    (h : Run (Fires (Kernel.step files fuel)) (.init mode supply) as k) :
    (∀ v l, k.spaces v = some l → RegionsWF k.userEnd l) ∧
      ∀ op out k', k.step files fuel op = some (out, k') →
        MapStep (Refused k.pages k'.pages) k.userEnd k.maps op out.ret k'.maps :=
  ⟨fun v l hl => (run_spacesWF h v l hl).wf,
    fun _ _ _ hstep => (step_mapStep (run_spacesWF h) hstep).1⟩

/-- A run that splits a file mapping in two, and what it says of the next unmapping. -/
theorem regions_refine_map_split : ∃ files as k, Run (Fires (Kernel.step files 0))
      (.init 0 [some 1, some 1, some 1, some 1, some 1, some 1]) as k ∧
    as.map Prod.fst = [.create 0,
      .map 0 0x10000 0x14000 VPROT_WRITE (some ⟨some 7, 0x1000, false, true, false⟩),
      .unmap 0 0x11000 0x12000] ∧
    (k.spaces 0).map (·.map fun r => (r.start, r.stop, r.fileOffset)) =
      some [(0x10000, 0x11000, 0x1000), (0x12000, 0x14000, 0x3000)] ∧
    (∀ v l, k.spaces v = some l → RegionsWF k.userEnd l) := by
  have hrun : Run (Fires (step noFiles 0))
      (.init 0 [some 1, some 1, some 1, some 1, some 1, some 1])
      [(.create 0, ⟨.ok 0, []⟩),
        (.map 0 0x10000 0x14000 VPROT_WRITE (some ⟨some 7, 0x1000, false, true, false⟩),
          ⟨.ok 0, []⟩),
        (.unmap 0 0x11000 0x12000, ⟨.ok 0, []⟩)] _ :=
    .cons rfl (.cons rfl (.cons rfl .nil))
  exact ⟨noFiles, _, _, hrun, rfl, by decide, (regions_refine_map hrun).1⟩

/-! ## The place of a mapping -/

/-- The addresses between the placement limits from which on `size` bytes are free. -/
def rooms (l : List Region) (size : Nat) : Set Nat :=
  {x | VMS_MMAP_MIN ≤ x ∧ x + size ≤ VMS_MMAP_TOP ∧ ∀ y, x ≤ y → y < x + size → pageMap l y = none}

/-- **A mapping gets the highest place there is.** In every state any calls can reach, with memory
for the region, `vms_map_any` returns the highest address with enough room, and an address
whenever there is room. -/
theorem map_any_takes_highest {mode a : Nat} {supply : List (Option Nat)} {as : List (Op × Out)}
    (h : Run (Fires (Kernel.step files fuel)) (.init mode supply) as k) (hl : k.spaces v = some l)
    (hsize : 0 < size ∧ pageOffset size = 0) (hmem : k.pages.answer ≠ none)
    (hstep : k.step files fuel (.mapAny v size vprot b) = some (out, k')) :
    out.ret = .ok a ↔ IsGreatest (rooms l size) a := by
  have wf := (run_spacesWF h v l hl).wf
  have hret : out.ret = .ok a ↔ findHighestGap l size = some a := by
    simp only [Kernel.step, hl, map_some, vmsMapAny] at hstep
    rw [if_neg (by omega), if_neg (by simpa using hmem)] at hstep
    split at hstep <;> cases hstep <;> simp_all
  have hfind : ∀ {x}, x ∈ rooms l size → ∃ y, findHighestGap l size = some y ∧ x ≤ y := by
    rintro x ⟨hmin, htop, hfree⟩
    exact findHighestGap_of_room wf hsize.1 hmin htop hfree
  have hroom : ∀ {y}, findHighestGap l size = some y → y ∈ rooms l size := by
    intro y hy
    have gap := findHighestGap_gap wf hsize.2 hy
    refine ⟨gap.above, gap.below, ?_⟩
    exact (rangeFree_iff_pageMap wf.ordered (by omega)).mp ((rangeFree_iff wf.ordered).mpr gap.free)
  rw [hret]
  constructor
  · refine fun ha => ⟨hroom ha, fun x hx => ?_⟩
    obtain ⟨y, hy, hle⟩ := hfind hx
    cases ha.symm.trans hy
    exact hle
  · intro hgreatest
    obtain ⟨y, hy, hle⟩ := hfind hgreatest.1
    rw [hy, le_antisymm hle (hgreatest.2 (hroom hy))]

/-- The second page goes right below the first one. -/
theorem map_any_takes_highest_two : ∃ files o1 o2 k,
    Run (Fires (Kernel.step files 0)) (.init 0 (.replicate 6 (some 1)))
      [(.create 0, o1), (.mapAny 0 0x1000 VPROT_WRITE none, o2)] k ∧
    (∃ l out k', k.spaces 0 = some l ∧ k.pages.answer ≠ none ∧
      out.ret = .ok (VMS_MMAP_TOP - 0x2000) ∧
      k.step files 0 (.mapAny 0 0x1000 VPROT_WRITE none) = some (out, k')) ∧
    ∃ l, k.spaces 0 = some l ∧ IsGreatest (rooms l 0x1000) (VMS_MMAP_TOP - 0x2000) := by
  refine ⟨noFiles, _, _, Run.exists_and
    ⟨_, .cons rfl (.cons rfl .nil), _, _, _, rfl, nofun, rfl, rfl⟩ fun k hrun hlast => ?_⟩
  obtain ⟨l, out, k', hl, hmem, hret, hstep⟩ := hlast
  exact ⟨l, hl, (map_any_takes_highest hrun hl (by decide) hmem hstep).mp hret⟩

end Vex.Mm
