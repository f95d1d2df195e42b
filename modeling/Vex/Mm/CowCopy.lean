import Vex.Mm.CowPages

/-! Access from the kernel to anonymous memory: pinning a page, and the loops of `vms_copyin` and
`vms_copyout`, in terms of the bytes an address space shows. -/

namespace Vex.Mm

open Function List

open Lib Lib.Intervals

/-- The byte an address space shows at an address. -/
def shown (p : Pages) (v a : Nat) : UInt8 := byteAt p (v, pageAlign a) (pageOffset a)

variable {pins : List Nat} {p p' : Pages} {f v w page virt : Nat} {slot s : Slot} {e : Pmentry}
  {files : Files} {fuel : Nat} {regions : List Region} {access : Vprot} {exclusive : Bool}

theorem shown_congr (h : byteAt p' = byteAt p) : shown p' = shown p := by
  funext v a
  rw [shown, h, shown]

/-- What pinning a page gives: the frame that is mapped there, pinned. -/
structure Pinned (pins : List Nat) (slot : Slot) (w : Option Bool) (exclusive : Bool) (p : Pages)
    (f : Nat) (p' : Pages) : Prop where
  sound : Sound (f :: pins) p'
  kept : Kept slot w p p'
  mapped : ∃ e, p'.pmaps slot = some e ∧ e.frame = f
  owned : exclusive = true → (p'.frames f).mappings = [slot]

/-- The regions of an address space that has private anonymous memory only. -/
structure AllAnonymous (regions : List Region) : Prop where
  anonymous : ∀ r ∈ regions, r.Anonymous
  ordered : Ordered Region.start Region.stop regions

theorem AllAnonymous.device (h : AllAnonymous regions) (x : Nat) :
    (findRegion regions x).any (·.device) = false := by
  cases hfd : findRegion regions x with
  | none => rfl
  | some r => simp [(h.anonymous r ((findRegion_eq_some_iff h.ordered).mp hfd).1).device]

/-- What the copies need of the pages, and keep. -/
structure Copyable (rights : Slot → Option Bool) (v : Nat) (regions : List Region) (p : Pages) :
    Prop where
  sound : Sound [] p
  placed : Placed rights p
  here : ∀ a, rights (v, pageAlign a) = rightsOf regions (pageAlign a)

variable {rights : Slot → Option Bool}

theorem Copyable.kept (h : Copyable rights v regions p) (hs : Sound [] p')
    (hk : Kept (v, pageAlign virt) (rightsOf regions (pageAlign virt)) p p') :
    Copyable rights v regions p' :=
  ⟨hs, h.placed.kept (h.here virt ▸ hk), h.here⟩

theorem pinLocked_spec (h : Copyable rights v regions p) (ha : AllAnonymous regions)
    (hpin : pinLocked files fuel p v regions virt access exclusive = (r, p')) :
    (r = none ∧ Copyable rights v regions p' ∧ byteAt p' = byteAt p) ∨
      ∃ f, r = some f ∧ Pinned [] (v, pageAlign virt)
        (rightsOf regions (pageAlign virt)) exclusive p f p' := by
  have hflt : Faulted [] (v, pageAlign virt) (rightsOf regions (pageAlign virt)) exclusive p
      (faultLocked files fuel p v regions (pageAlign virt) access exclusive) :=
    faultLocked_spec h.sound ha.anonymous ha.ordered fun e he => h.here virt ▸ h.placed _ e he
  rcases hf : faultLocked files fuel p v regions (pageAlign virt) access exclusive with
    ⟨err | ⟨⟨⟩⟩, p1⟩ <;> rw [hf] at hflt <;>
    simp only [pinLocked, ha.device, pinLoop, hf, Bool.false_eq_true] at hpin
  · cases hpin
    exact .inl ⟨rfl, h.kept hflt.sound hflt.kept, hflt.kept.bytes⟩
  obtain ⟨e, he⟩ := hflt.mapped rfl
  rw [rmapPin_some hflt.sound he] at hpin
  cases hpin
  refine .inr ⟨e.frame, rfl, pframeIncref_sound hflt.sound (hflt.sound.nonzero _ _ he),
    hflt.kept.then_quiet (.setFrame ..), ⟨e, he, rfl⟩, fun hex => ?_⟩
  obtain ⟨d, hd, hm⟩ := hflt.owned rfl hex
  rw [he] at hd
  cases hd
  exact (setFrame_mappings p1 (by rfl) _).trans hm

theorem accessBeginLocked_eq (ha : AllAnonymous regions) :
    accessBeginLocked files fuel current p v regions virt access exclusive =
      ((pinLocked files fuel p v regions virt access exclusive).1.map (·, true),
        (pinLocked files fuel p v regions virt access exclusive).2) := by
  have hdev : (findRegion regions virt).filter (·.device) = none := by
    have := ha.device virt
    cases hfd : findRegion regions virt with
    | none => rfl
    | some r => simpa [hfd] using this
  rcases hpin : pinLocked files fuel p v regions virt access exclusive with ⟨_ | f, p'⟩ <;>
    simp [accessBeginLocked, hdev, hpin]

/-! ## Reading -/

theorem Pinned.region (h : Pinned pins slot (rightsOf regions page) exclusive p f p') :
    rightsOf regions page ≠ none := by
  obtain ⟨e, he, -⟩ := h.mapped
  obtain ⟨b, hb, -⟩ := h.kept.rights e he
  simp [hb]

theorem Copyable.pinned (h : Copyable rights v regions p)
    (hp : Pinned [] (v, pageAlign virt) (rightsOf regions (pageAlign virt)) exclusive p f p') :
    Copyable rights v regions (putFrame p' f) :=
  h.kept (putFrame_sound hp.sound) (hp.kept.then_quiet (.putFrame _ _))

theorem readFrame_shown (hp : Pinned pins (v, pageAlign virt) w' exclusive p f p')
    (hn : n ≤ PAGE_SIZE - pageOffset virt) (hi : i < n) :
    (readFrame p' f (pageOffset virt) n)[i]? = some (shown p v (virt + i)) := by
  obtain ⟨e, he, rfl⟩ := hp.mapped
  have hin : pageOffset virt + i < PAGE_SIZE := by omega
  rw [shown, pageAlign_add hin, pageOffset_add hin, ← hp.kept.bytes]
  simp [readFrame, hi, byteAt, he]

/-- `vms_copyin` reads what the address space shows, and changes none of it. -/
theorem copyinLoop_spec (files : Files) (fuel : Nat) (current : Bool) (ha : AllAnonymous regions)
    (n src size : Nat) (ptr : List UInt8) (h : Copyable rights v regions p) (hn : size ≤ n) :
    let r := copyinLoop files fuel current v regions n src size ptr p
    Copyable rights v regions r.2.2 ∧ byteAt r.2.2 = byteAt p ∧
      ∃ got, r.2.1 = ptr ++ got ∧ got.length ≤ size ∧
        (∀ i b, got[i]? = some b → rightsOf regions (pageAlign (src + i)) ≠ none ∧
          b = shown p v (src + i)) ∧
        ∀ m, r.1 = .ok m → m = ptr.length + size ∧ got.length = size := by
  induction n generalizing src size ptr p with
  | zero =>
    obtain rfl : size = 0 := by omega
    exact ⟨h, rfl, [], by simp [copyinLoop], by simp, by simp, by simp [copyinLoop]⟩
  | succ n ih =>
    rw [copyinLoop]
    by_cases hsz : size = 0
    · subst hsz
      exact ⟨h, rfl, [], by simp, by simp, by simp, by simp⟩
    rw [if_neg hsz, accessBeginLocked_eq ha]
    rcases hpin : pinLocked files fuel p v regions src VPROT_READ false with ⟨r, p1⟩
    rcases pinLocked_spec h ha hpin with ⟨rfl, hc, hb⟩ | ⟨f, rfl, hp⟩
    · exact ⟨hc, hb, [], by simp, by simp, by simp, by simp⟩
    set chunk := min (PAGE_SIZE - pageOffset src) size with hchk
    have hlt : pageOffset src < PAGE_SIZE := Nat.mod_lt _ (by decide)
    have hch' : 0 < chunk ∧ chunk ≤ size ∧ chunk ≤ PAGE_SIZE - pageOffset src := by omega
    set read := readFrame p1 f (pageOffset src) chunk with hrd
    have hlen : read.length = chunk := by simp [hrd, readFrame]
    have hb : byteAt (putFrame p1 f) = byteAt p := (Quiet.putFrame p1 f).byteAt.trans hp.kept.bytes
    obtain ⟨hc, hby, got, hgot, hle, hval, hok⟩ :=
      ih (src + chunk) (size - chunk) (ptr ++ read) (h.pinned hp) (by omega)
    refine ⟨hc, hby.trans hb, read ++ got, ?_, ?_, ?_, ?_⟩
    · rw [← append_assoc]
      exact hgot
    · rw [length_append]
      omega
    · intro i b hib
      by_cases hi : i < chunk
      · rw [getElem?_append_left (by omega), readFrame_shown hp hch'.2.2 hi] at hib
        refine ⟨?_, (Option.some.inj hib).symm⟩
        rw [pageAlign_add (by omega)]
        exact hp.region
      · rw [getElem?_append_right (by omega), hlen] at hib
        obtain ⟨h1, h2⟩ := hval (i - chunk) b hib
        rw [show src + chunk + (i - chunk) = src + i by omega] at h1 h2
        exact ⟨h1, h2.trans (by rw [shown_congr hb])⟩
    · intro m hm
      obtain ⟨h1, h2⟩ := hok m hm
      rw [length_append] at h1
      rw [length_append]
      omega

/-! ## Writing -/

theorem byteAt_writeFrame (h : Sound pins p) (he : p.pmaps slot = some e)
    (hm : (p.frames e.frame).mappings = [slot]) (o : Nat) (bytes : List UInt8) :
    byteAt (writeFrame p e.frame o bytes) =
      update (byteAt p) slot (overlay o bytes (byteAt p slot)) := by
  funext s
  by_cases hs : s = slot
  · subst hs
    funext x
    rw [update_self]
    have hp : (writeFrame p e.frame o bytes).pmaps s = some e := he
    have hshow : byteAt p s = p.data e.frame := funext fun x => by simp [byteAt, he]
    simp only [byteAt, hp, hshow]
    exact congrFun (update_self e.frame _ p.data) x
  · rw [update_of_ne hs]
    refine byteAt_congr rfl fun d hd => update_of_ne (fun heq => ?_) ..
    have := h.mem_mappings hd
    rw [heq, hm] at this
    exact hs (mem_singleton.mp this)

theorem shown_writeFrame (h : Sound pins p) (he : p.pmaps (v, pageAlign virt) = some e)
    (hm : (p.frames e.frame).mappings = [(v, pageAlign virt)])
    (hlen : bytes.length ≤ PAGE_SIZE - pageOffset virt) :
    shown (writeFrame p e.frame (pageOffset virt) bytes) =
      update (shown p) v (overlay virt bytes (shown p v)) := by
  have hv := pageAlign_add_pageOffset virt
  funext w a
  have ha := pageAlign_add_pageOffset a
  rw [shown, byteAt_writeFrame h he hm]
  by_cases hwv : w = v
  · subst hwv
    rw [update_self]
    by_cases hpg : pageAlign a = pageAlign virt
    · rw [hpg, update_self]
      have hle : pageOffset virt ≤ pageOffset a ↔ virt ≤ a := by omega
      have hsub : pageOffset a - pageOffset virt = a - virt := by omega
      simp [overlay, hle, hsub, shown, hpg]
    rw [update_of_ne (by simpa using hpg)]
    have hout : a < virt ∨ virt + bytes.length ≤ a := by
      by_contra hin
      exact hpg (by
        rw [show a = virt + (a - virt) by omega]
        exact pageAlign_add (by omega))
    rcases hout with hout | hout
    · rw [overlay_of_lt hout, shown]
    · rw [overlay_of_ge hout, shown]
  · rw [update_of_ne hwv, update_of_ne (by simp [hwv]), shown]

theorem Sound.writeFrame (h : Sound pins p) (f o : Nat) (bytes : List UInt8) :
    Sound pins (writeFrame p f o bytes) :=
  h.setData ..

theorem Copyable.written (h : Copyable rights v regions p)
    (hp : Pinned [] (v, pageAlign virt) (rightsOf regions (pageAlign virt)) exclusive p f p')
    (o : Nat) (bytes : List UInt8) :
    Copyable rights v regions (putFrame (writeFrame p' f o bytes) f) := by
  refine ⟨putFrame_sound (hp.sound.writeFrame ..), ?_, h.here⟩
  have hplc : Placed rights p' := h.placed.kept (h.here virt ▸ hp.kept)
  exact Placed.quiet (p := writeFrame p' f o bytes) hplc (.putFrame _ _)

/-- `vms_copyout` writes a prefix of the bytes at the address, all of them if it succeeds, and
nothing else. -/
theorem copyoutLoop_spec (files : Files) (fuel : Nat) (current : Bool) (ha : AllAnonymous regions)
    (n dst : Nat) (src : List UInt8) (done : Nat) (h : Copyable rights v regions p)
    (hn : src.length ≤ n) :
    let r := copyoutLoop files fuel current v regions n dst src done p
    Copyable rights v regions r.2.2 ∧ ∃ m, r.2.1 = done + m ∧ m ≤ src.length ∧
      shown r.2.2 = update (shown p) v (overlay dst (src.take m) (shown p v)) ∧
      (∀ i, i < m → rightsOf regions (pageAlign (dst + i)) ≠ none) ∧
      ∀ c, r.1 = .ok c → c = done + src.length ∧ m = src.length := by
  induction n generalizing dst src done p with
  | zero =>
    obtain rfl : src = [] := eq_nil_of_length_eq_zero (by omega)
    exact ⟨h, 0, rfl, by simp, by simp [copyoutLoop], by simp, by simp [copyoutLoop]⟩
  | succ n ih =>
    rw [copyoutLoop]
    by_cases hsz : src.length = 0
    · rw [if_pos hsz]
      exact ⟨h, 0, rfl, by simp, by simp, by simp, by simp [hsz]⟩
    rw [if_neg hsz, accessBeginLocked_eq ha]
    rcases hpin : pinLocked files fuel p v regions dst VPROT_WRITE true with ⟨r, p1⟩
    rcases pinLocked_spec h ha hpin with ⟨rfl, hc, hb⟩ | ⟨f, rfl, hp⟩
    · refine ⟨hc, 0, rfl, by simp, ?_, by simp, by simp⟩
      simp [shown_congr hb]
    set chunk := min (PAGE_SIZE - pageOffset dst) src.length with hchk
    have hlt : pageOffset dst < PAGE_SIZE := Nat.mod_lt _ (by decide)
    have hch' : 0 < chunk ∧ chunk ≤ src.length ∧ chunk ≤ PAGE_SIZE - pageOffset dst := by omega
    have htk : (src.take chunk).length = chunk := length_take_of_le hch'.2.1
    obtain ⟨e, he, hf⟩ := hp.mapped
    set p2 := putFrame (writeFrame p1 f (pageOffset dst) (src.take chunk)) f with hp2
    have hshow : shown p2 =
        update (shown p) v (overlay dst (src.take chunk) (shown p v)) := by
      rw [shown_congr (Quiet.putFrame _ f).byteAt, ← hf,
        shown_writeFrame hp.sound he (hf ▸ hp.owned rfl) (by omega), shown_congr hp.kept.bytes]
    obtain ⟨hc, m, hm, hle, hby, hin, hok⟩ :=
      ih (dst + chunk) (src.drop chunk) (done + chunk)
        (h.written hp (pageOffset dst) (src.take chunk)) (by rw [length_drop]; omega)
    rw [length_drop] at hle
    refine ⟨hc, chunk + m, hm.trans (by omega), by omega, ?_, ?_, ?_⟩
    · refine hby.trans ?_
      rw [hshow, update_self, update_idem]
      congr 1
      have happ := overlay_append dst (src.take chunk) ((src.drop chunk).take m) (shown p v)
      rw [htk, ← take_add] at happ
      exact happ
    · intro i hi
      by_cases hic : i < chunk
      · rw [pageAlign_add (by omega)]
        exact hp.region
      · have := hin (i - chunk) (by omega)
        rwa [show dst + chunk + (i - chunk) = dst + i by omega] at this
    · intro c hc
      obtain ⟨h1, h2⟩ := hok c hc
      rw [length_drop] at h1 h2
      omega

end Vex.Mm
