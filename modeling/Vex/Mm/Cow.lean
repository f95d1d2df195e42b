import Vex.Mm.CowCalls
import Vex.Mm.CowCopy

/-! Copy-on-write isolation. The abstract model is one memory per address space, changed only by
what is done through that address space: mapping zeroes, unmapping forgets, a clone copies, a
write writes. The kernel, with its shared frames, reference counts and read-only entries, shows
exactly these memories. -/

namespace Vex.Mm

open Function Region Kernel Option

open Lib Lib.Intervals

/-! ## The abstract memories -/

/-- The memory of every address space; `none` where nothing is mapped. -/
abbrev Memories := Nat → Nat → Option UInt8

namespace Memories

/-- Bytes written through an address space. -/
def write (m : Memories) (v a : Nat) (bytes : List UInt8) : Memories :=
  update m v (overlay a (bytes.map some) (m v))

/-- The addresses of `[s, e)` of an address space set to one value. -/
def fill (m : Memories) (v s e : Nat) (x : Option UInt8) : Memories :=
  update m v fun a => if s ≤ a ∧ a < e then x else m v a

/-- What a call, with the outcome it had, does to the memories. -/
def step (m : Memories) : Op × Out → Memories
  | (.release v, _) => update m v fun _ => none
  | (.unmapAll v, _) => update m v fun _ => none
  | (.map v s e _ _, ⟨.ok _, _⟩) => m.fill v s e (some 0)
  | (.mapReplace v s e _ _, ⟨.ok _, _⟩) => m.fill v s e (some 0)
  | (.mapAny v size _ _, ⟨.ok a, _⟩) => m.fill v a (a + size) (some 0)
  | (.unmap v s e, ⟨.ok _, _⟩) => m.fill v s e none
  | (.clone child source, ⟨.ok _, _⟩) => update m child (m source)
  | (.touch v virt _, out) => m.write v virt out.bytes
  | (.copyout v dst _ _, out) => m.write v dst out.bytes
  | (.store v virt _, out) => m.write v virt out.bytes
  | _ => m

/-- The bytes a call read are those of the memory of its address space, and those it wrote are
its argument's: a prefix of them, or all of them if it succeeded. -/
def Moves (m : Memories) : Op × Out → Prop
  | (.copyin v src size _, out) =>
    (∀ i b, out.bytes[i]? = some b → m v (src + i) = some b) ∧
      ∀ n, out.ret = .ok n → out.bytes.length = size
  | (.load v virt, out) => ∃ b, out.bytes = [b] ∧ m v virt = some b
  | (.copyout _ _ src _, out) =>
    (∃ n, out.bytes = src.take n) ∧ ∀ n, out.ret = .ok n → out.bytes = src
  | (.touch _ _ bytes, out) => ∃ n, out.bytes = bytes.take n
  | (.store _ _ byte, out) => out.bytes = [byte]
  | _ => True

end Memories

open Memories

/-- The address space whose memory a call may change. -/
def Op.target : Op → Nat
  | .create v | .release v | .unmapAll v => v
  | .map v .. | .mapReplace v .. | .mapAny v .. | .unmap v .. | .protect v .. => v
  | .clone child _ => child
  | .fault v .. | .touch v .. | .copyin v .. | .copyout v .. | .load v .. | .store v .. => v

/-- A call that maps private anonymous memory, if it maps at all. -/
def Op.Anonymous : Op → Prop
  | .map _ _ _ _ b | .mapReplace _ _ _ _ b | .mapAny _ _ _ b => ∀ x, b = some x → x.file = none
  | _ => True

/-- Nothing done through one address space changes the memory of another. -/
theorem Memories.step_other (m : Memories) (op : Op) (out : Out) (h : w ≠ op.target) :
    m.step (op, out) w = m w := by
  rcases op with _ | _ | _ | _ | _ | _ | _ | _ | _ | _ | _ | _ | _ | _ | _ <;>
    rcases out with ⟨_ | _, _⟩ <;> first | rfl | exact update_of_ne h ..

/-! ## What the kernel shows -/

/-- The byte an access through an address space would find, from the maps and the pages. -/
def Maps.view (m : Maps) (p : Pages) : Memories := fun v a =>
  (m v).bind fun f => (f a).map fun _ => shown p v a

/-- What the maps allow at each page. -/
def Maps.rights (m : Maps) (s : Slot) : Option Bool :=
  if pageOffset s.2 = 0 then (m s.1).bind fun f => (f s.2).map (Vprot.writes ·.vprot) else none

def Kernel.view (k : Kernel) : Memories := k.maps.view k.pages

/-- The invariant of copy-on-write: the region lists are in shape and anonymous, the sharing
state is sound, and pages are mapped in regions only. -/
structure Kernel.Cow (k : Kernel) : Prop where
  spaces : k.SpacesWF
  anonymous : ∀ v f x i, k.maps v = some f → f x = some i → i.file = none
  sound : Sound [] k.pages
  placed : Placed k.maps.rights k.pages

variable {k k' : Kernel} {files : Files} {fuel : Nat} {op : Op} {out : Out} {l : List Region}
  {u s e v x : Nat} {p p' : Pages} {m m' : Maps}

theorem Kernel.init_cow (mode : Nat) (supply : List (Option Nat)) :
    (init mode supply).Cow := by
  refine ⟨init_spacesWF mode supply, nofun, ?_, nofun⟩
  exact ⟨fun _ => rfl, fun _ => .nil, fun _ _ => by simp [init], nofun, nofun, nofun, nofun,
    fun _ => rfl⟩

theorem MapStep.anonymous (h : MapStep short u m op ret m')
    (ha : ∀ v f x i, m v = some f → f x = some i → i.file = none) (hop : op.Anonymous) :
    ∀ v f x i, m' v = some f → f x = some i → i.file = none := by
  have hinfo : ∀ {b : Option Backing} {vprot : Vprot} {d : Nat},
      (∀ x, b = some x → x.file = none) → (Backing.info b vprot d).file = none := by
    intro b vprot d hb
    rcases b with _ | ⟨_ | f, o, sh, mw, dv⟩
    · rfl
    · rfl
    · cases hb _ rfl
  -- a map replaced by one that is anonymous
  have hset : ∀ {v : Nat} {g : Option PMap},
      (∀ f x i, g = some f → f x = some i → i.file = none) →
      ∀ w f x i, update m v g w = some f → f x = some i → i.file = none := by
    intro v g hg w f x i hf hi
    by_cases hw : w = v
    · subst hw
      rw [update_self] at hf
      exact hg f x i hf hi
    · rw [update_of_ne hw] at hf
      exact ha w f x i hf hi
  have hran : ∀ {v s e : Nat} {f g : PMap}, m v = some f → (∀ x i, g x = some i → i.file = none) →
      ∀ f' x i, some (f.onRange s e g) = some f' → f' x = some i → i.file = none := by
    intro v s e f g hf hg f' x i hf' hi
    cases hf'
    simp only [PMap.onRange] at hi
    split at hi
    · exact hg x i hi
    · exact ha v f x i hf hi
  cases h with
  | create => exact hset fun f x i hf hi => by cases hf; cases hi
  | release => exact hset fun f x i hf => by cases hf
  | map _ hf => exact hset (hran hf fun x i hi => by cases hi; exact hinfo hop)
  | replace _ hf => exact hset (hran hf fun x i hi => by cases hi; exact hinfo hop)
  | any _ _ _ hf => exact hset (hran hf fun x i hi => by cases hi; exact hinfo hop)
  | unmap _ hf => exact hset (hran hf fun x i hi => by cases hi)
  | protect _ hf =>
    refine hset (hran hf fun x i hi => ?_)
    obtain ⟨j, hj, rfl⟩ := map_eq_some_iff.mp hi
    exact ha _ _ x j hf hj
  | unmapAll => exact hset fun f x i hf hi => by cases hf; cases hi
  | clone _ hf => exact hset fun f x i hf' hi => by cases hf'; exact ha _ _ x i hf hi
  | _ => exact ha

/-! ## Maps and pages -/

section

variable {f g : PMap} {w a : Nat}

theorem pageMap_pageAlign (wf : RegionsWF u l) (a : Nat) :
    (pageMap l (pageAlign a)).map (·.vprot) = (pageMap l a).map (·.vprot) := by
  have hiff : ∀ r ∈ l, Has start stop (pageAlign a) r ↔
      Has start stop a r := fun r hr =>
    and_congr (le_pageAlign_iff (wf.alignedStart r hr)) (pageAlign_lt_iff (wf.alignedStop r hr))
  cases h : pageMap l a with
  | none =>
    rw [pageMap, valueAt_eq_none_iff] at h
    rw [pageMap, valueAt_eq_none fun r hr hx => h r hr ((hiff r hr).mp hx)]
  | some i =>
    obtain ⟨r, hr, hx, rfl⟩ := (valueAt_eq_some_iff wf.ordered).mp h
    rw [pageMap, valueAt_of_mem wf.ordered hr ((hiff r hr).mpr hx)]
    rfl

theorem Kernel.maps_some (hl : k.spaces v = some l) : k.maps v = some (pageMap l) := by
  simp [maps, hl]

theorem Placed.unmapped (h : Placed m.rights p) (hx : (m v).bind (· x) = none) :
    p.pmaps (v, x) = none := by
  cases he : p.pmaps (v, x) with
  | none => rfl
  | some e =>
    obtain ⟨b, hb, -⟩ := h _ e he
    simp only [Maps.rights] at hb
    split at hb
    · cases hv : m v with
      | none => simp [hv] at hb
      | some f => simp_all
    · cases hb

theorem Placed.aligned (h : Placed m.rights p) {e : Pmentry} (he : p.pmaps (v, x) = some e) :
    pageOffset x = 0 := by
  obtain ⟨b, hb, -⟩ := h _ e he
  simp only [Maps.rights] at hb
  split at hb
  · assumption
  · cases hb

theorem shown_unmapped (h : p.pmaps (v, pageAlign a) = none) : shown p v a = 0 := by
  simp [shown, byteAt, h]

section
variable (h : k.Cow) (hl : k.spaces v = some l)
include h hl

theorem Kernel.Cow.allAnonymous : AllAnonymous l := by
  have hwf := h.spaces v l hl
  refine ⟨fun r hr => ?_, hwf.wf.ordered⟩
  have hi : pageMap l r.start = some (r.info r.start) :=
    valueAt_of_mem hwf.wf.ordered hr ⟨le_rfl, hwf.wf.ordered.nonempty r hr⟩
  have hfl : r.file = none := by
    have := h.anonymous v _ _ _ (maps_some hl) hi
    simpa [info] using this
  obtain ⟨h1, -, h2⟩ := (hwf.canonical _ _ hi).anonymous (by simp [info, hfl])
  exact ⟨hfl, h1, h2⟩

theorem Kernel.Cow.rights_eq (a : Nat) :
    k.maps.rights (v, pageAlign a) = rightsOf l (pageAlign a) := by
  have hwf := h.spaces v l hl
  rw [Maps.rights, if_pos (pageOffset_pageAlign a), maps_some hl, bind_some,
    pageMap_eq hwf.wf.ordered, map_map]
  rfl

theorem Kernel.Cow.copyable :
    Copyable k.maps.rights v l k.pages :=
  ⟨h.sound, h.placed, h.rights_eq hl⟩

theorem Kernel.Cow.view_of_rights (hr : rightsOf l (pageAlign a) ≠ none) :
    k.view v a = some (shown k.pages v a) := by
  have hwf := (h.spaces v l hl).wf
  have hpg : pageMap l (pageAlign a) ≠ none := by
    rw [pageMap_eq hwf.ordered]
    simpa [rightsOf] using hr
  have hmap := pageMap_pageAlign hwf a
  cases ha : pageMap l a with
  | none =>
    simp_all
  | some i => simp [view, Maps.view, maps_some hl, ha]

end

theorem Maps.view_congr (h : shown p' = shown p) : m.view p' = m.view p := by
  funext v a
  simp only [Maps.view, h]

theorem Maps.view_onRange (hv : m v = some f)
    (hsame : ∀ w a, ¬(w = v ∧ s ≤ a ∧ a < e) → shown p' w a = shown p w a)
    (hin : ∀ a, s ≤ a → a < e → (g a).map (fun _ => shown p' v a) = val) :
    Maps.view (update m v (some (f.onRange s e g))) p' = (m.view p).fill v s e val := by
  funext w a
  by_cases hw : w = v
  · subst hw
    simp only [Maps.view, fill, update_self, hv, bind_some, PMap.onRange]
    split
    · rename_i hx
      exact hin a hx.1 hx.2
    · rename_i hx
      rw [hsame w a fun h => hx h.2]
  · simp only [Maps.view, fill, update_of_ne hw]
    rw [hsame w a fun h => hw h.1]

theorem Maps.rights_onRange (hv : m v = some f) (hs : ¬(slot.1 = v ∧ s ≤ slot.2 ∧ slot.2 < e)) :
    Maps.rights (update m v (some (f.onRange s e g))) slot = m.rights slot := by
  simp only [Maps.rights]
  by_cases hw : slot.1 = v
  · have hn : ¬(s ≤ slot.2 ∧ slot.2 < e) := fun h => hs ⟨hw, h⟩
    simp [hw, update_self, hv, PMap.onRange, if_neg hn]
  · rw [update_of_ne hw]

/-- Pages stay placed if none is left in the range whose map changed. -/
theorem Placed.onRange (h : Placed m.rights p) (hv : m v = some f)
    (hsub : ∀ slot d, p'.pmaps slot = some d →
      p.pmaps slot = some d ∧ ¬(slot.1 = v ∧ s ≤ slot.2 ∧ slot.2 < e)) :
    Placed (Maps.rights (update m v (some (f.onRange s e g)))) p' := by
  intro slot d hd
  obtain ⟨h1, h2⟩ := hsub slot d hd
  rw [Maps.rights_onRange hv h2]
  exact h slot d h1

end

theorem slot_eq {slot : Slot} (h : slot.1 = v) : slot = (v, slot.2) := Prod.ext h rfl

/-! ## Each call follows the abstract memories -/

/-- A step from the maps `m` over the pages `p` that the memories follow. -/
structure Tracks (m : Maps) (p : Pages) (a : Op × Out) (m' : Maps) (p' : Pages) : Prop where
  sound : Sound [] p'
  placed : Placed m'.rights p'
  view : m'.view p' = (m.view p).step a

section

variable {bytes : List UInt8} {ret : Except Errno Nat} {vprot : Vprot} {b : Option Backing}
  {child source : Nat}

theorem Tracks.quiet (h : Sound [] p) (hp : Placed m.rights p) (ha : Alike p p')
    (hst : (m.view p).step a = m.view p) : Tracks m p a m p' :=
  ⟨h.alike ha, hp.quiet ha.toQuiet, by
    rw [hst, Maps.view_congr (shown_congr ha.toQuiet.byteAt)]⟩

/-- Mapping a free range: nothing was mapped there, so it shows zeroes. -/
theorem Tracks.free (h : Sound [] p) (hp : Placed m.rights p) (ha : Alike p p')
    (hr : ValidRange u s e) (hv : m v = some f) (hfree : ∀ x, s ≤ x → x < e → f x = none)
    {g : Nat → PageInfo} (hst : (m.view p).step a = (m.view p).fill v s e (some 0)) :
    Tracks m p a (update m v (some (f.onRange s e fun x => some (g x)))) p' := by
  have hnone : ∀ x, s ≤ x → x < e → p.pmaps (v, x) = none := fun x h1 h2 =>
    hp.unmapped (by rw [hv, bind_some, hfree x h1 h2])
  have hsho := shown_congr ha.toQuiet.byteAt
  refine ⟨h.alike ha, hp.onRange hv fun slot d hd => ?_, Eq.trans ?_ hst.symm⟩
  · rw [ha.pmaps] at hd
    refine ⟨hd, ?_⟩
    rintro ⟨h1, h2, h3⟩
    rw [slot_eq h1, hnone slot.2 h2 h3] at hd
    cases hd
  · refine Maps.view_onRange hv (fun w a _ => by rw [hsho]) fun a h1 h2 => congrArg some ?_
    rw [hsho]
    exact shown_unmapped (hnone _ ((le_pageAlign_iff hr.start).mpr h1)
      ((pageAlign_lt_iff hr.stop).mpr h2))

theorem Released.shown_range (h : Released v (fun x => s ≤ x ∧ x < e) ([], p) ([], p'))
    (hs : pageOffset s = 0) (he : pageOffset e = 0) :
    (∀ w a, ¬(w = v ∧ s ≤ a ∧ a < e) → shown p' w a = shown p w a) ∧
      ∀ a, s ≤ a → a < e → shown p' v a = 0 := by
  constructor
  · intro w a hno
    rcases h.byteAt (w, pageAlign a) with ⟨h1, h2, -⟩ | ⟨-, h1⟩
    · exact absurd ⟨h1, (le_pageAlign_iff hs).mp h2.1, (pageAlign_lt_iff he).mp h2.2⟩ hno
    · rw [shown, h1, shown]
  · intro a h1 h2
    have h3 := (le_pageAlign_iff hs).mpr h1
    have h4 := (pageAlign_lt_iff he).mpr h2
    rcases h.byteAt (v, pageAlign a) with ⟨-, -, h5⟩ | ⟨h5, -⟩
    · rw [shown, h5]
    · exact absurd ⟨rfl, h3, h4⟩ h5

theorem Released.still (h : Released v gone ([], p) ([], p')) (hd : p'.pmaps slot = some d) :
    p.pmaps slot = some d ∧ ¬(slot.1 = v ∧ gone slot.2) := by
  rcases h.pmaps slot with ⟨h1, -⟩ | ⟨h1, h2⟩
  · rw [show p'.pmaps slot = none from h1] at hd
    cases hd
  · exact ⟨h1 ▸ hd, h2⟩

theorem unit_ok (h : (unit r).1 = .ok n) : r.1 = .ok () := by
  rcases r with ⟨_ | ⟨⟨⟩⟩, _⟩
  · cases h
  · rfl

theorem unit_error (h : (unit r).1 = .error err) : r.1 = .error err := by
  rcases r with ⟨_ | ⟨⟨⟩⟩, _⟩ <;> cases h
  rfl

section
variable (h : Sound [] p) (hp : Placed m.rights p)
include h hp

theorem Tracks.map (ha : Alike p p') (hm : MapStep short u m (.map v s e vprot b) ret m') :
    Tracks m p (.map v s e vprot b, ⟨ret, bytes⟩) m' p' := by
  cases hm with
  | map hr hv hfree => exact .free h hp ha hr hv hfree rfl
  | _ => exact .quiet h hp ha rfl

theorem Tracks.mapAny (ha : Alike p p') (hm : MapStep short u m (.mapAny v size vprot b) ret m') :
    Tracks m p (.mapAny v size vprot b, ⟨ret, bytes⟩) m' p' := by
  cases hm with
  | any hr _ _ hv hfree => exact .free h hp ha hr hv hfree rfl
  | _ => exact .quiet h hp ha rfl

theorem Tracks.mapReplace (hrel : Releases v s e p r) (hret : ret = (unit r).1)
    (hm : MapStep short u m (.mapReplace v s e vprot b) ret m') :
    Tracks m p (.mapReplace v s e vprot b, ⟨ret, bytes⟩) m' r.2.2 := by
  cases hm with
  | replace hr hv =>
    have hrel := hrel.1 (unit_ok hret.symm)
    obtain ⟨hsame, hz⟩ := hrel.shown_range hr.start hr.stop
    exact ⟨hrel.sound, hp.onRange hv fun slot d hd => hrel.still hd,
      Maps.view_onRange hv hsame fun a h1 h2 => congrArg some (hz a h1 h2)⟩
  | _ => exact .quiet h hp (hrel.2 _ (unit_error hret.symm)) rfl

theorem Tracks.unmap (hrel : Releases v s e p r) (hret : ret = (unit r).1)
    (hm : MapStep short u m (.unmap v s e) ret m') :
    Tracks m p (.unmap v s e, ⟨ret, bytes⟩) m' r.2.2 := by
  cases hm with
  | unmap hr hv =>
    have hrel := hrel.1 (unit_ok hret.symm)
    exact ⟨hrel.sound, hp.onRange hv fun slot d hd => hrel.still hd,
      Maps.view_onRange hv (hrel.shown_range hr.start hr.stop).1 fun _ _ _ => rfl⟩
  | _ => exact .quiet h hp (hrel.2 _ (unit_error hret.symm)) rfl

end

theorem Tracks.cleared (hp : Placed m.rights p) (hrel : Released v (fun _ => True) ([], p) ([], p'))
    (hg : ∀ f, g = some f → ∀ x, f x = none)
    (hst : (m.view p).step a = update (m.view p) v fun _ => none) :
    Tracks m p a (update m v g) p' := by
  refine ⟨hrel.sound, fun slot d hd => ?_, Eq.trans ?_ hst.symm⟩
  · obtain ⟨h1, h2⟩ := hrel.still hd
    have hne : slot.1 ≠ v := fun h => h2 ⟨h, trivial⟩
    obtain ⟨b, hb, hw⟩ := hp slot d h1
    refine ⟨b, ?_, hw⟩
    simp only [Maps.rights, update_of_ne hne] at hb ⊢
    exact hb
  · funext w a
    by_cases hw : w = v
    · subst hw
      simp only [Maps.view, update_self]
      cases hgf : g with
      | none => rfl
      | some f => simp [hg f hgf]
    · simp only [Maps.view, update_of_ne hw]
      rcases hrel.byteAt (w, pageAlign a) with ⟨h1, -⟩ | ⟨-, h1⟩
      · exact absurd h1 hw
      · rw [shown, h1, shown]

theorem Tracks.protect (h : Sound [] p) (hp : Placed m.rights p)
    (hok : ∀ n, ret = .ok n → Reprotected v (fun x => s ≤ x ∧ x < e) (Vprot.writes vprot) p p')
    (herr : ∀ err, ret = .error err → Alike p p')
    (hm : MapStep short u m (.protect v s e vprot) ret m') :
    Tracks m p (.protect v s e vprot, ⟨ret, bytes⟩) m' p' := by
  cases hm with
  | protect hr hv hcov =>
    rename_i f _
    have hrep := hok 0 rfl
    refine ⟨hrep.sound, fun slot d hd => ?_, ?_⟩
    · by_cases hs : slot.1 = v ∧ s ≤ slot.2 ∧ slot.2 < e
      · obtain ⟨rfl, hs⟩ := hs
        have hsm := hrep.mapped slot
        rw [hd, isSome_some, eq_comm, isSome_iff_exists] at hsm
        obtain ⟨d', hd'⟩ := hsm
        have hoff : pageOffset slot.2 = 0 := hp.aligned hd'
        obtain ⟨i, hi⟩ := ne_none_iff_exists'.mp (hcov slot.2 hs.1 hs.2)
        refine ⟨Vprot.writes vprot, ?_, hrep.rights slot.2 d hs hd⟩
        simp [Maps.rights, hoff, PMap.onRange, hs, hi]
      · rw [Maps.rights_onRange hv hs]
        rw [hrep.others slot hs] at hd
        exact hp slot d hd
    · change _ = m.view p
      rw [Maps.view_congr (shown_congr hrep.bytes)]
      funext w a
      by_cases hw : w = v
      · subst hw
        simp only [Maps.view, update_self, hv, bind_some, PMap.onRange]
        split
        · cases f a <;> rfl
        · rfl
      · simp only [Maps.view, update_of_ne hw]
  | _ => exact .quiet h hp (herr _ rfl) rfl

theorem byteAt_of_frame (hd : p'.data = p.data)
    (hf : (p'.pmaps slot').map (·.frame) = (p.pmaps slot).map (·.frame)) :
    byteAt p' slot' = byteAt p slot := by
  unfold byteAt
  cases h1 : p'.pmaps slot' <;> cases h2 : p.pmaps slot <;> simp_all

theorem Tracks.clone (hp : Placed m.rights p) (hcl : Cloned child source p at' p')
    (hat : ∀ n, ret = .ok n → ∀ x, at' x ∨ p.pmaps (source, x) = none)
    (hno : ∀ err, ret = .error err → ∀ x, ¬at' x) (hc : m child = some fun _ => none)
    (hm : MapStep short u m (.clone child source) ret m') :
    Tracks m p (.clone child source, ⟨ret, bytes⟩) m' p' := by
  have hoth : ∀ w a, w ≠ child → shown p' w a = shown p w a := by
    intro w a hw
    rw [shown, byteAt_of_frame hcl.data (hcl.frames (w, pageAlign a) hw), shown]
  have hweaker : ∀ slot d, slot.1 ≠ child → p'.pmaps slot = some d → Allows (m.rights slot) d := by
    intro slot d hs hd
    obtain ⟨d', hd', hw⟩ := hcl.weaker slot d hs hd
    obtain ⟨b, hb, hb'⟩ := hp slot d' hd'
    exact ⟨b, hb, fun h => hb' (hw h)⟩
  cases hm with
  | cloneFailed =>
    refine ⟨hcl.sound, fun slot d hd => ?_, ?_⟩
    · refine hweaker slot d (fun hs => ?_) hd
      rw [slot_eq hs, hcl.rest _ (hno _ rfl _)] at hd
      cases hd
    · funext w a
      change Maps.view m p' w a = Maps.view m p w a
      by_cases hw : w = child
      · subst hw; simp [Maps.view, hc]
      · simp only [Maps.view, hoth w a hw]
  | clone _ hsrc =>
    have hall : ∀ x, (p'.pmaps (child, x)).map (·.frame) =
        (p.pmaps (source, x)).map (·.frame) := by
      intro x
      rcases hat 0 rfl x with hx | hx
      · exact hcl.shared x hx
      by_cases hx' : at' x
      · exact hcl.shared x hx'
      · rw [hcl.rest x hx', hx]
    refine ⟨hcl.sound, fun slot d hd => ?_, ?_⟩
    · by_cases hs : slot.1 = child
      · obtain ⟨w, x⟩ := slot
        subst hs
        have hfrm := hall x
        rw [hd, map_some, eq_comm, map_eq_some_iff] at hfrm
        obtain ⟨d', hd', -⟩ := hfrm
        obtain ⟨b, hb, -⟩ := hp (source, x) d' hd'
        refine ⟨b, ?_, fun hw => ?_⟩
        · simp only [Maps.rights, hsrc] at hb
          simpa [Maps.rights] using hb
        · rw [hcl.readonly x d hd] at hw
          cases hw
      · obtain ⟨b, hb, hw⟩ := hweaker slot d hs hd
        refine ⟨b, ?_, hw⟩
        simp only [Maps.rights, update_of_ne hs] at hb ⊢
        exact hb
    · funext w a
      change _ = update (m.view p) child (m.view p source) w a
      by_cases hw : w = child
      · subst hw
        simp [Maps.view, update_self, hsrc, shown, byteAt_of_frame hcl.data (hall (pageAlign a))]
      · simp [Maps.view, update_of_ne hw, hoth w a hw]

theorem Maps.view_write (hv : m v = some f)
    (hsho : shown p' = update (shown p) v (overlay a bytes (shown p v)))
    (hin : ∀ i, i < bytes.length → f (a + i) ≠ none) : m.view p' = (m.view p).write v a bytes := by
  funext w x
  by_cases hw : w = v
  · subst hw
    simp only [Maps.view, Memories.write, update_self, hv, bind_some, hsho]
    by_cases h1 : x < a
    · rw [overlay_of_lt h1, overlay_of_lt h1, Maps.view, hv, bind_some]
    by_cases h2 : x < a + bytes.length
    · have hlt : x - a < bytes.length := by omega
      have hne := hin (x - a) hlt
      rw [show a + (x - a) = x by omega] at hne
      obtain ⟨i, hi⟩ := ne_none_iff_exists'.mp hne
      rw [hi, overlay_of_mem (by omega) hlt, overlay_of_mem (by omega) (by simpa using hlt)]
      simp
    · rw [overlay_of_ge (by omega), overlay_of_ge (by simp; omega), Maps.view, hv, bind_some]
  · simp [Maps.view, Memories.write, update_of_ne hw, hsho]

end

/-! ## Every run -/

theorem Kernel.Cow.private (h : k.Cow) (hl : k.spaces v = some l) :
    Private k.userEnd v l k.pages := by
  refine ⟨h.spaces v l hl, fun x i => h.anonymous v _ x i (maps_some hl), h.sound,
    fun x d hd => ⟨h.placed.aligned hd, fun hno => ?_⟩⟩
  rw [h.placed.unmapped (by rw [maps_some hl, bind_some, hno])] at hd
  cases hd

/-- What the step theorem is about, for one step. -/
structure Kernel.Follows (k : Kernel) (a : Op × Out) (k' : Kernel) : Prop where
  tracks : Tracks k.maps k.pages a k'.maps k'.pages
  moves : k.view.Moves a

theorem clearTables_spec (h : Sound [] p) (hv : ∀ x, p.pmaps (v, x) = none) :
    Sound [] (clearTables p v) ∧ Quiet p (clearTables p v) := by
  have hpm : (clearTables p v).pmaps = p.pmaps := by
    funext slot
    simp only [clearTables]
    split
    · rename_i hs
      rw [slot_eq hs, hv]
    · rfl
  refine ⟨{ h with mapped := ?_, sole := ?_, nonzero := ?_, tabled := ?_ }, hpm, rfl⟩ <;> rw [hpm]
  · exact h.mapped
  · exact h.sole
  · exact h.nonzero
  intro slot d hd
  have hs : slot.1 ≠ v := by
    intro hs
    rw [slot_eq hs, hv] at hd
    cases hd
  simp only [clearTables, tableOf, if_neg hs]
  exact h.tabled slot d hd

theorem Tracks.kept (h : Sound [] p') (hp : Placed m.rights p') (hb : shown p' = shown p)
    (hst : (m.view p).step a = m.view p) : Tracks m p a m p' :=
  ⟨h, hp, by rw [hst, Maps.view_congr hb]⟩

theorem Released.of_quiet (h : Sound [] p') (hq : Quiet p p') (hv : ∀ x, p.pmaps (v, x) = none) :
    Released v (fun _ => True) ([], p) ([], p') := by
  refine ⟨h, hq.data, fun slot => ?_⟩
  by_cases hs : slot.1 = v
  · refine .inl ⟨?_, hs, trivial⟩
    rw [slot_eq hs, hq.pmaps, hv]
  · exact .inr ⟨congrFun hq.pmaps slot, fun h => hs h.1⟩

section
variable (h : k.Cow)
include h

theorem Kernel.Cow.create (hv : k.maps v = none) (ha : k.view.step a = k.view) :
    Tracks k.maps k.pages a (update k.maps v (some fun _ => none))
      (clearTables k.pages.spent v) := by
  have hnone : ∀ x, k.pages.spent.pmaps (v, x) = none := fun x =>
    h.placed.unmapped (by rw [hv]; rfl)
  obtain ⟨hs, hq⟩ := clearTables_spec (h.sound.alike (.spent _)) hnone
  have hrel : Released v (fun _ => True) ([], k.pages) ([], clearTables k.pages.spent v) :=
    .of_quiet hs ((Alike.spent _).toQuiet.trans hq) hnone
  have hview : k.view v = fun _ => none := funext fun a => by simp [view, Maps.view, hv]
  refine .cleared h.placed hrel (fun f hf x => by cases hf; rfl) (ha.trans ?_)
  rw [← hview]
  exact (update_eq_self v k.view).symm

theorem Kernel.Cow.release (hl : k.spaces v = some l) :
    Tracks k.maps k.pages (.release v, ⟨.ok 0, []⟩) (update k.maps v none)
      (clearTables (releaseRegions v k.pages l) v) := by
  have hrel := (h.private hl).releaseAll
  have hnone : ∀ x, (releaseRegions v k.pages l).pmaps (v, x) = none := by
    intro x
    rcases hrel.pmaps (v, x) with ⟨h1, -⟩ | ⟨-, h1⟩
    · exact h1
    · exact absurd ⟨rfl, trivial⟩ h1
  obtain ⟨h1, h2, h3⟩ := Tracks.cleared (g := none) (a := (.release v, ⟨.ok 0, []⟩)) h.placed hrel
    nofun rfl
  obtain ⟨hs, hq⟩ := clearTables_spec h1 hnone
  exact ⟨hs, h2.quiet hq, (Maps.view_congr (shown_congr hq.byteAt)).trans h3⟩

theorem Kernel.Cow.unmapAll (hl : k.spaces v = some l) :
    Tracks k.maps k.pages (.unmapAll v, ⟨.ok 0, []⟩)
      (update k.maps v (some fun _ => none)) (releaseRegions v k.pages l) :=
  .cleared h.placed (h.private hl).releaseAll (fun f hf x => by cases hf; rfl) rfl

theorem Kernel.Cow.clone (hc : k.spaces child = some []) (hl : k.spaces source = some l)
    (hret : ret = (unit (vmsClone k.pages child source l)).1)
    (hm : MapStep short u k.maps (.clone child source) ret m') :
    Tracks k.maps k.pages (.clone child source, ⟨ret, bytes⟩) m'
      (vmsClone k.pages child source l).2.2 := by
  have hcm : k.maps child = some fun _ => none := by rw [maps_some hc]; rfl
  have hcn : ∀ x, k.pages.pmaps (child, x) = none := fun x =>
    h.placed.unmapped (by rw [hcm]; rfl)
  by_cases hne : child = source
  · -- an empty address space cloned into itself
    subst hne
    rw [hc] at hl
    cases hl
    subst hret
    cases hm with
    | clone _ hsrc =>
      rw [hcm] at hsrc
      cases hsrc
      rw [Maps.update_same hcm]
      refine .kept h.sound h.placed rfl ?_
      exact update_eq_self child _
  · have hpriv := h.private hl
    have hcl := vmsClone_pages h.sound hcn hne
      (fun it hit => hpriv.region hpriv.wf rfl hit) fun it hit x d hx hd hw => by
        obtain ⟨b, hb, hb'⟩ := h.placed (source, x) d hd
        have hwf := hpriv.wf.wf
        obtain ⟨hoff, h1, h2⟩ :=
          (mem_pages (hwf.alignedStart it hit) (hwf.alignedStop it hit)).mp hx
        have hi : pageMap l x = some (it.info x) := valueAt_of_mem hwf.ordered hit ⟨h1, h2⟩
        simp only [Maps.rights, hoff, if_true, maps_some hl, bind_some, hi, map_some,
          some.injEq] at hb
        exact hb.trans (hb' hw)
    refine .clone h.placed hcl (fun n hn x => ?_) (fun err hn x hx => ?_) hcm hm
    · cases hx : k.pages.pmaps (source, x) with
      | none => exact .inr rfl
      | some d =>
        obtain ⟨r, hr, -, hxr⟩ := hpriv.page hpriv.wf rfl hx
        exact .inl ⟨unit_ok (hret ▸ hn), r, hr, hxr⟩
    · have := unit_error (hret ▸ hn)
      rw [hx.1] at this
      cases this

section
variable {virt : Nat} (hl : k.spaces v = some l)
include hl

/-- A fault, or an access that needed one, kept everything. -/
theorem Kernel.Cow.fault (ha : k.view.step a = k.view) :
    Tracks k.maps k.pages a k.maps
      (vmsFault files fuel k.userEnd k.pages v l virt access).2 := by
  unfold vmsFault
  split
  · exact .kept h.sound h.placed rfl ha
  have hflt : Faulted [] (v, pageAlign virt) (rightsOf l (pageAlign virt)) _ k.pages
      (faultLocked files fuel k.pages v l (pageAlign virt) (access &&& ~~~VPROT_USER)
        (Vprot.writes (access &&& ~~~VPROT_USER))) :=
    faultLocked_spec h.sound (h.allAnonymous hl).anonymous (h.allAnonymous hl).ordered
      fun e he => h.rights_eq hl virt ▸ h.placed _ e he
  exact .kept hflt.sound (h.placed.kept (h.rights_eq hl virt ▸ hflt.kept))
    (shown_congr hflt.kept.bytes) ha

theorem Kernel.Cow.mapped_of_rights (hr : rightsOf l (pageAlign a) ≠ none) :
    pageMap l a ≠ none := by
  have := h.view_of_rights hl hr
  intro hno
  simp [view, Maps.view, maps_some hl, hno] at this

theorem Kernel.Cow.touch (bytes : List UInt8)
    (hst : k.step files fuel (.touch v virt bytes) = some (out, k')) :
    Tracks k.maps k.pages (.touch v virt bytes, out) k'.maps k'.pages := by
  simp only [step, hl, map_some] at hst
  have hnone : k.view.step (.touch v virt bytes, ⟨.ok 0, []⟩) = k.view := by
    simp [Memories.step, Memories.write]
  unfold vmsTouch at hst
  by_cases hvt : virt ≥ k.userEnd
  · rw [if_pos hvt] at hst
    cases hst
    exact .kept h.sound h.placed rfl hnone
  rw [if_neg hvt] at hst
  rcases hpin : pinLocked files fuel k.pages v l virt VPROT_NONE true with ⟨r, p1⟩
  rw [hpin] at hst
  rcases pinLocked_spec (h.copyable hl) (h.allAnonymous hl) hpin with ⟨rfl, hc, hb⟩ | ⟨f, rfl, hp⟩
  · cases hst
    exact .kept hc.sound hc.placed (shown_congr hb) hnone
  cases hst
  obtain ⟨e, he, rfl⟩ := hp.mapped
  have hcp := (h.copyable hl).pinned hp
  have he' : (putFrame p1 e.frame).pmaps (v, pageAlign virt) = some e := by
    rw [(Quiet.putFrame _ _).pmaps, he]
  have hm' : ((putFrame p1 e.frame).frames e.frame).mappings = [(v, pageAlign virt)] := by
    rw [putFrame_mappings, hp.owned rfl]
  have hlen : (bytes.take (PAGE_SIZE - pageOffset virt)).length ≤
      PAGE_SIZE - pageOffset virt := List.length_take_le _ _
  have hsho := shown_writeFrame hcp.sound he' hm' hlen
  have hsame : shown (putFrame p1 e.frame) = shown k.pages :=
    shown_congr ((Quiet.putFrame _ _).byteAt.trans hp.kept.bytes)
  rw [hsame] at hsho
  refine ⟨hcp.sound.writeFrame .., hcp.placed, ?_⟩
  refine Maps.view_write (maps_some hl) hsho fun i hi => h.mapped_of_rights hl ?_
  have hi : i < (bytes.take (PAGE_SIZE - pageOffset virt)).length := hi
  rw [pageAlign_add (by omega)]
  exact hp.region

theorem Kernel.Cow.copyin
    (hst : k.step files fuel (.copyin v src size current) = some (out, k')) :
    k.Follows (.copyin v src size current, out) k' := by
  simp only [step, hl] at hst
  cases hst
  unfold vmsCopyin
  split
  · exact ⟨.kept h.sound h.placed rfl rfl, by simp [Memories.Moves]⟩
  obtain ⟨hc, hb, got, hgot, hle, hval, hok⟩ := copyinLoop_spec files fuel current
    (h.allAnonymous hl) size src size [] (h.copyable hl) le_rfl
  refine ⟨.kept hc.sound hc.placed (shown_congr hb) rfl, fun i b hib => ?_, fun n hn => ?_⟩
  · simp only [hgot] at hib
    obtain ⟨h1, rfl⟩ := hval i b hib
    exact h.view_of_rights hl h1
  · rw [show _ = got from hgot]
    exact (hok n hn).2

theorem Kernel.Cow.copyout
    (hst : k.step files fuel (.copyout v dst src current) = some (out, k')) :
    k.Follows (.copyout v dst src current, out) k' := by
  simp only [step, hl] at hst
  cases hst
  unfold vmsCopyout
  split
  · refine ⟨.kept h.sound h.placed rfl ?_, ⟨0, by simp⟩, by simp⟩
    simp [Memories.step, Memories.write]
  obtain ⟨hc, m, hm, hle, hsho, hin, hok⟩ := copyoutLoop_spec files fuel current
    (h.allAnonymous hl) src.length dst src 0 (h.copyable hl) le_rfl
  rw [Nat.zero_add] at hm
  simp only [hm]
  refine ⟨⟨hc.sound, hc.placed, ?_⟩, ⟨m, rfl⟩, fun n hn => ?_⟩
  · refine Maps.view_write (maps_some hl) hsho fun i hi => ?_
    exact h.mapped_of_rights hl (hin i (lt_of_lt_of_le hi (List.length_take_le _ _)))
  · simp [(hok n hn).2]

end

theorem Kernel.Cow.load (hst : k.step files fuel (.load v virt) = some (out, k')) :
    k.Follows (.load v virt, out) k' := by
  obtain ⟨e, he, ⟨⟩⟩ := map_eq_some_iff.mp hst
  refine ⟨.kept h.sound h.placed rfl rfl, _, rfl, ?_⟩
  obtain ⟨b, hb, -⟩ := h.placed _ e he
  cases hl : k.spaces v with
  | none => simp [Maps.rights, maps, hl] at hb
  | some l =>
    rw [h.rights_eq hl] at hb
    rw [h.view_of_rights hl (by simp [hb])]
    simp [shown, byteAt, he]

theorem Kernel.Cow.store (hst : k.step files fuel (.store v virt byte) = some (out, k')) :
    k.Follows (.store v virt byte, out) k' := by
  obtain ⟨e, he, ⟨⟩⟩ := map_eq_some_iff.mp hst
  obtain ⟨he, hw⟩ := filter_eq_some_iff.mp he
  obtain ⟨b, hb, -⟩ := h.placed _ e he
  have hlt : pageOffset virt < PAGE_SIZE := Nat.mod_lt _ (by decide)
  have hlen : [byte].length ≤ PAGE_SIZE - pageOffset virt := by
    rw [List.length_singleton]
    omega
  have hsho := shown_writeFrame h.sound he (h.sound.sole _ e he hw) hlen
  cases hl : k.spaces v with
  | none => simp [Maps.rights, maps, hl] at hb
  | some l =>
    rw [h.rights_eq hl] at hb
    refine ⟨⟨h.sound.writeFrame .., h.placed, ?_⟩, rfl⟩
    refine Maps.view_write (maps_some hl) hsho fun i hi => h.mapped_of_rights hl ?_
    obtain rfl : i = 0 := by simpa using hi
    rw [Nat.add_zero, hb]
    simp

/-- **Step lemma.** Every step does to the view what the memories say. -/
theorem Kernel.Cow.follows (hst : k.step files fuel op = some (out, k')) :
    k.Follows (op, out) k' := by
  have hm := (step_mapStep h.spaces hst).1
  cases op with
  | create v =>
    simp only [step] at hst
    split at hst
    · cases hst
    rename_i hv
    have hv : k.maps v = none := by simpa [maps] using hv
    split at hst <;> cases hst
    · exact ⟨.quiet h.sound h.placed (.spent _) rfl, trivial⟩
    refine ⟨?_, trivial⟩
    rw [maps_update]
    exact h.create hv rfl
  | release v =>
    obtain ⟨l, hl, ⟨⟩⟩ := map_eq_some_iff.mp hst
    refine ⟨?_, trivial⟩
    rw [maps_update]
    exact h.release hl
  | map v s e vprot b =>
    obtain ⟨l, hl, ⟨⟩⟩ := map_eq_some_iff.mp hst
    exact ⟨.map h.sound h.placed vmsMap_alike hm, trivial⟩
  | mapReplace v s e vprot b =>
    obtain ⟨l, hl, ⟨⟩⟩ := map_eq_some_iff.mp hst
    have hrel := vmsMapReplace_pages s e vprot b (h.private hl)
    exact ⟨.mapReplace h.sound h.placed hrel rfl hm, trivial⟩
  | mapAny v size vprot b =>
    obtain ⟨l, hl, ⟨⟩⟩ := map_eq_some_iff.mp hst
    exact ⟨.mapAny h.sound h.placed vmsMapAny_alike hm, trivial⟩
  | unmap v s e =>
    obtain ⟨l, hl, ⟨⟩⟩ := map_eq_some_iff.mp hst
    exact ⟨.unmap h.sound h.placed (vmsUnmap_pages s e (h.private hl)) rfl hm, trivial⟩
  | protect v s e vprot =>
    obtain ⟨l, hl, ⟨⟩⟩ := map_eq_some_iff.mp hst
    obtain ⟨hok, herr⟩ := vmsProtect_pages s e vprot (h.private hl)
    exact ⟨.protect h.sound h.placed (fun n hn => hok (unit_ok hn))
      (fun err hn => herr err (unit_error hn)) hm, trivial⟩
  | unmapAll v =>
    obtain ⟨l, hl, ⟨⟩⟩ := map_eq_some_iff.mp hst
    refine ⟨?_, trivial⟩
    rw [maps_update]
    exact h.unmapAll hl
  | clone child source =>
    simp only [step] at hst
    split at hst
    · rename_i hc
      obtain ⟨l, hl, ⟨⟩⟩ := map_eq_some_iff.mp hst
      exact ⟨h.clone hc hl rfl hm, trivial⟩
    · cases hst
  | fault v virt access =>
    obtain ⟨l, hl, ⟨⟩⟩ := map_eq_some_iff.mp hst
    exact ⟨h.fault hl rfl, trivial⟩
  | touch v virt bytes =>
    obtain ⟨l, hl, heq⟩ := map_eq_some_iff.mp hst
    refine ⟨h.touch hl bytes hst, ?_⟩
    split at heq <;> cases heq
    · exact ⟨0, by simp⟩
    · exact ⟨_, rfl⟩
  | copyin v src size current =>
    obtain ⟨l, hl, -⟩ := map_eq_some_iff.mp hst
    exact h.copyin hl hst
  | copyout v dst src current =>
    obtain ⟨l, hl, -⟩ := map_eq_some_iff.mp hst
    exact h.copyout hl hst
  | load v virt => exact h.load hst
  | store v virt byte => exact h.store hst

theorem Kernel.Cow.step (hop : op.Anonymous) (hst : k.step files fuel op = some (out, k')) :
    k'.Cow := by
  obtain ⟨hm, hwf⟩ := step_mapStep h.spaces hst
  have hf := h.follows hst
  exact ⟨hwf, hm.anonymous h.anonymous hop, hf.tracks.sound, hf.tracks.placed⟩

end

/-- The steps of a kernel that maps private anonymous memory only. -/
abbrev AnonymousStep (files : Files) (fuel : Nat) : Kernel → Op × Out → Kernel → Prop :=
  Under (fun _ a => a.1.Anonymous) (Fires (Kernel.step files fuel))

theorem Kernel.run_cow {mode : Nat} (h : Run (AnonymousStep files fuel) (.init mode supply) as k) :
    k.Cow :=
  h.invariant (I := Kernel.Cow) (fun h hs => h.step hs.1 hs.2) (init_cow mode supply)

/-- **Copy-on-write isolation.** After any calls on any number of address spaces, with any
answers of the allocator, the bytes the kernel shows are those of the abstract memories, each
changed only by what was done through its own address space; what the next call reads is what
they hold, and no other address space sees what it does. -/
theorem cow_isolation {mode : Nat} {supply : List (Option Nat)} {as : List (Op × Out)}
    (h : Run (AnonymousStep files fuel) (.init mode supply) as k) :
    k.view = as.foldl Memories.step (fun _ _ => none) ∧
      ∀ op out k', op.Anonymous → k.step files fuel op = some (out, k') →
        (as.foldl Memories.step fun _ _ => none).Moves (op, out) ∧
          ∀ w, w ≠ op.target → k'.view w = k.view w := by
  have hview : k.view = as.foldl Memories.step (fun _ _ => none) :=
    h.view_foldl (fun h hs => h.step hs.1 hs.2)
      (fun h hs => (h.follows hs.2).tracks.view) (init_cow mode supply)
  refine ⟨hview, fun op out k' _ hstep => ?_⟩
  have hf := (run_cow h).follows hstep
  refine ⟨hview ▸ hf.moves, fun w hw => ?_⟩
  rw [view, hf.tracks.view]
  exact step_other _ op out hw

/-- A parent writes, forks and writes again: the child still reads what it inherited. -/
theorem cow_isolation_fork : ∃ files as k,
    Run (AnonymousStep files 0) (.init 0 ((List.range 12).map fun i => some (i + 1))) as k ∧
      as.map Prod.fst = [.create 0, .map 0 0x10000 0x12000 VPROT_WRITE none,
        .copyout 0 0x10010 [7, 8] true, .create 1, .clone 1 0, .copyout 0 0x10010 [9] true] ∧
      k.view = as.foldl Memories.step (fun _ _ => none) ∧
      [k.view 0 0x10010, k.view 1 0x10010, k.view 1 0x10012] = [some 9, some 7, some 0] := by
  let ops : List Op := [.create 0, .map 0 0x10000 0x12000 VPROT_WRITE none,
    .copyout 0 0x10010 [7, 8] true, .create 1, .clone 1 0, .copyout 0 0x10010 [9] true]
  have htrace : trace (step noFiles 0) (.init 0 ((List.range 12).map fun i => some (i + 1))) ops =
    some (_, _) := rfl
  obtain ⟨hrun, hops⟩ := Run.of_trace htrace
  have hrun : Run (AnonymousStep noFiles 0) _ _ _ := hrun.under fun a ha => by
    have hmem : a.1 ∈ ops := hops ▸ List.mem_map_of_mem ha
    simp only [ops, List.mem_cons, List.not_mem_nil, or_false] at hmem
    rcases hmem with h | h | h | h | h | h <;> rw [h] <;> first | trivial | nofun
  exact ⟨noFiles, _, _, hrun, hops, (cow_isolation hrun).1, by decide +kernel⟩

/-- The references to a frame that it has for the pages it was handed out for; one that is in use
for a page table has none. -/
def Kernel.pageRefs (k : Kernel) (f : Nat) : Nat := (k.pages.frames f).refcount

/-- **Frames of pages are accounted for.** After any calls on any number of address spaces, the
count of a frame handed out for pages is the number of pages that show it, over all address spaces;
every such page is mapped in its space, and is the only one if it can be written; with nothing
mapped no frame is in use for a page. -/
theorem frames_accounted {mode : Nat} {supply : List (Option Nat)} {as : List (Op × Out)}
    (h : Run (AnonymousStep files fuel) (.init mode supply) as k) :
    (∀ f, ∃ slots : List Slot, slots.Nodup ∧ slots.length = k.pageRefs f ∧
      ∀ slot, slot ∈ slots ↔ ∃ e, k.pages.pmaps slot = some e ∧ e.frame = f) ∧
    (∀ v x e, k.pages.pmaps (v, x) = some e → (k.maps v).bind (· x) ≠ none ∧
      (Vprot.writes e.vprot = true → ∀ slot e', k.pages.pmaps slot = some e' →
        e'.frame = e.frame → slot = (v, x))) ∧
    ((∀ v x, (k.maps v).bind (· x) = none) → ∀ f, k.pageRefs f = 0) := by
  have hcow := run_cow h
  have hmapped : ∀ v x e, k.pages.pmaps (v, x) = some e → (k.maps v).bind (· x) ≠ none := by
    intro v x e he hx
    rw [hcow.placed.unmapped hx] at he
    cases he
  refine ⟨fun f => ⟨_, hcow.sound.nodup f, (hcow.sound.refcount f).symm, hcow.sound.mapped f⟩,
    fun v x e he => ⟨hmapped v x e he, fun hw slot e' he' heq => ?_⟩, fun hno f => ?_⟩
  · have hmem := heq ▸ hcow.sound.mem_mappings he'
    rw [hcow.sound.sole _ e he hw] at hmem
    exact List.mem_singleton.mp hmem
  · rw [pageRefs, hcow.sound.refcount, List.count_nil, Nat.add_zero, List.length_eq_zero_iff,
      List.eq_nil_iff_forall_not_mem]
    rintro ⟨v, x⟩ hmem
    obtain ⟨e, he, -⟩ := (hcow.sound.mapped f _).mp hmem
    exact hmapped v x e he (hno v x)

/-- A parent writes and forks, and both go. -/
theorem frames_accounted_fork : ∃ files o1 o2 o3 o4 o5 o6 o7 k,
    Run (AnonymousStep files 0) (.init 0 ((List.range 12).map fun i => some (i + 1)))
      [(.create 0, o1), (.map 0 0x10000 0x12000 VPROT_WRITE none, o2),
        (.copyout 0 0x10010 [7] true, o3), (.create 1, o4), (.clone 1 0, o5), (.release 0, o6),
        (.release 1, o7)] k ∧ (∀ v, k.maps v = none) ∧ ∀ f, k.pageRefs f = 0 := by
  refine ⟨noFiles, _, _, _, _, _, _, _, Run.exists_and ⟨_, .cons ⟨trivial, rfl⟩
    (.cons ⟨nofun, rfl⟩ (.cons ⟨trivial, rfl⟩ (.cons ⟨trivial, rfl⟩ (.cons ⟨trivial, rfl⟩
      (.cons ⟨trivial, rfl⟩ (.cons ⟨trivial, rfl⟩ .nil)))))), fun v => ?_⟩ fun k hrun hno => ?_⟩
  · rcases v with _ | _ | v <;> rfl
  · exact (frames_accounted hrun).2.2 fun v x => by rw [hno]; rfl

end Vex.Mm
