import Vex.Fs.Unmount

/-! A file system is torn down only when no walk holds a reference to one of its vnodes, provided no
walk takes `..` while the counts are being read. -/

namespace Vex.Fs.Unmount.World

open Vex.Lib Function Option List

attribute [local simp] fillStep Certain unmountStep

variable {n : Nat} {s s' : World n} {t : Fin n} {v w : Nat}

theorem held_update (hs : s'.walks = update s.walks t vs) (v : Nat) :
    s'.held v + (s.walks t).count v = s.held v + vs.count v := by
  rw [held, hs]
  exact tally_update (fun vs => vs.count v) s.walks t vs

theorem held_pos (hv : v ∈ s.walks t) : 0 < s.held v :=
  Nat.lt_of_lt_of_le (count_pos_iff.2 hv) (le_tally (fun vs => vs.count v) s.walks t)

theorem held_eq_zero : s.held v = 0 ↔ ∀ t, v ∉ s.walks t := by
  simp [held, tally_eq_zero, count_eq_zero]

theorem count_cons_add (vs : List Nat) :
    (v :: vs).count w = vs.count w + if v = w then 1 else 0 := by
  simp [count_cons]

theorem count_erase_add {vs : List Nat} (hv : v ∈ vs) :
    (vs.erase v).count w + (if v = w then 1 else 0) = vs.count w := by
  rw [(perm_cons_erase hv).count_eq w, count_cons_add]

theorem held_take : (s.take t v).held w = s.held w + if v = w then 1 else 0 := by
  have h : (s.take t v).held w + _ = _ := held_update rfl w
  rw [count_cons_add] at h
  omega

theorem held_drop (hv : v ∈ s.walks t) :
    (s.drop t v).held w + (if v = w then 1 else 0) = s.held w := by
  have h : (s.drop t v).held w + _ = _ := held_update rfl w
  have := count_erase_add (w := w) hv
  omega

theorem mem_update_walks (hw : w ∈ update s.walks t vs t') : w ∈ vs ∨ w ∈ s.walks t' := by
  by_cases ht : t' = t
  · subst ht
    exact .inl (by simpa using hw)
  · exact .inr (by simpa [ht] using hw)

theorem Balanced.take (h : s.Balanced) (hv : v ∈ s.alive) : (s.take t v).Balanced := by
  refine ⟨h.nodup, fun w => ?_, h.parents, fun {t' w} hw => ?_, h.owed, h.pinned, h.root⟩
  · have hc := h.counted w
    have hbs : (s.take t v).base w = s.base w := rfl
    rw [hbs, held_take]
    by_cases hw : w = v
    · subst hw
      simp only [World.take, setCount, update_self, if_true]
      omega
    · simp only [World.take, setCount, update_of_ne hw, Ne.symm hw, if_false]
      omega
  · rcases mem_update_walks hw with hw | hw
    · rcases mem_cons.1 hw with rfl | hw
      · exact hv
      · exact h.walks hw
    · exact h.walks hw

theorem Balanced.drop (h : s.Balanced) (hv : v ∈ s.walks t) : (s.drop t v).Balanced := by
  refine ⟨h.nodup, fun w => ?_, h.parents, fun {t' w} hw => ?_, h.owed, h.pinned, h.root⟩
  · have hc := h.counted w
    have hbs : (s.drop t v).base w = s.base w := rfl
    have hheld := held_drop (w := w) hv
    rw [hbs]
    by_cases hw : w = v
    · subst hw
      simp only [World.drop, setCount, update_self, if_true] at hheld ⊢
      omega
    · simp only [Ne.symm hw, if_false] at hheld
      simp only [World.drop, setCount, update_of_ne hw] at hheld ⊢
      omega
  · rcases mem_update_walks hw with hw | hw
    · exact h.walks (mem_of_mem_erase hw)
    · exact h.walks hw

theorem Balanced.settle (h : s.Balanced) (hv : v ∈ s.owed) :
    Balanced { s.setCount v (s.refcount v - 1) with owed := s.owed.erase v } := by
  refine ⟨h.nodup, fun w => ?_, h.parents, h.walks, fun hw => h.owed (mem_of_mem_erase hw),
    h.pinned, h.root⟩
  have hc := h.counted w
  have hpm := count_erase_add (w := w) hv
  have hbs : base { s.setCount v (s.refcount v - 1) with owed := s.owed.erase v } w =
    s.base w := rfl
  have hheld : held { s.setCount v (s.refcount v - 1) with owed := s.owed.erase v } w =
    s.held w := rfl
  rw [hbs, hheld]
  by_cases hw : w = v
  · subst hw
    simp only [setCount, update_self, if_true] at hpm ⊢
    omega
  · simp only [Ne.symm hw, if_false] at hpm
    simp only [setCount, update_of_ne hw]
    omega

theorem count_toList (p : Option Nat) (w : Nat) :
    p.toList.count w = if p = some w then 1 else 0 := by
  cases p with
  | none => simp
  | some p => simp [count_singleton]

/-- A vnode without references leaves, and its reference to the parent is owed. -/
theorem Balanced.leave {cached orphaned : List Nat} (h : s.Balanced)
    (hpm : (s.cached ++ s.orphaned).Perm (v :: (cached ++ orphaned)))
    (hpin : ∀ {w}, w ∈ s.cached → w ≠ v → w ∈ cached) (hv : s.refcount v = 0) :
    Balanced { s with cached, orphaned, owed := (s.parent v).toList ++ s.owed } := by
  have h0 := h.counted v
  have hbs : s.base v = 0 := by omega
  simp only [base] at hbs
  have hnotpin : s.pinned v = false := by
    by_contra hp
    simp [hp] at hbs
  have hkid : ∀ {w}, w ∈ s.cached ++ s.orphaned → s.parent w ≠ some v := by
    intro w hw hp
    have : 0 < s.kids v := countP_pos_iff.2 ⟨w, hw, by simp [hp]⟩
    omega
  have hmem : ∀ {w}, w ∈ s.alive → w ≠ v → w ∈ s.root :: (cached ++ orphaned) := by
    intro w hw hne
    rcases mem_cons.1 hw with rfl | hw
    · exact mem_cons_self
    · exact mem_cons_of_mem _ ((mem_cons.1 (hpm.mem_iff.1 hw)).resolve_left hne)
  refine ⟨?_, fun w => ?_, fun {w p} hw hp => ?_, fun {t w} hw => ?_, fun {w} hw => ?_,
    fun hp => hpin (h.pinned hp) fun hwv => by simp [hwv, hnotpin] at hp, h.root⟩
  · have hn := h.nodup
    have : s.alive.Perm (s.root :: v :: (cached ++ orphaned)) := hpm.cons _
    exact (this.nodup_iff.1 hn).sublist ((sublist_cons_self _ _).cons_cons _)
  · have hc := h.counted w
    have hk : s.kids w = (if s.parent v = some w then 1 else 0) +
        (cached ++ orphaned).countP (fun x => s.parent x = some w) := by
      rw [kids, hpm.countP_eq, countP_cons]
      simp only [decide_eq_true_eq]
      omega
    simp only [base] at hc
    simp only [base, held, kids, count_append, count_toList]
    simp only [held] at hc
    omega
  · exact hmem (h.parents (hpm.mem_iff.2 (mem_cons_of_mem _ hw)) hp)
      fun hpv => hkid (hpm.mem_iff.2 (mem_cons_of_mem _ hw)) (hpv ▸ hp)
  · refine hmem (h.walks hw) fun hwv => ?_
    have : 0 < s.held v := held_pos (hwv ▸ hw)
    omega
  have hvmem : v ∈ s.cached ++ s.orphaned := hpm.mem_iff.2 mem_cons_self
  rcases mem_append.1 hw with hw | hw
  · have hp : s.parent v = some w := mem_toList.1 hw
    exact hmem (h.parents hvmem hp) fun hwv => hkid hvmem (hwv ▸ hp)
  · refine hmem (h.owed hw) fun hwv => ?_
    have := count_pos_iff.2 (hwv ▸ hw)
    omega

theorem Balanced.fill (h : s.Balanced) (hd : d ∈ s.walks t) (hv : v ∉ s.alive)
    (hpin : s.pinned v = false) : (s.fillStep t d v k directory).Balanced := by
  set s1 := s.fillStep t d v k directory with hs1
  have hca : s1.cached.Perm (v :: s.cached) := by
    refine perm_middle.trans ?_
    rw [take_append_drop]
  have hlis : (s1.cached ++ s.orphaned).Perm (v :: (s.cached ++ s.orphaned)) :=
    hca.append_right s.orphaned
  have halv : s1.alive.Perm (v :: s.alive) := (hlis.cons s.root).trans (List.Perm.swap _ _ _)
  have hmem : ∀ {w}, w ∈ s.alive → w ∈ s1.alive :=
    fun hw => halv.mem_iff.2 (mem_cons_of_mem _ hw)
  have hne : ∀ {w}, w ∈ s.cached ++ s.orphaned → w ≠ v := by
    rintro w hw rfl
    exact hv (mem_cons_of_mem _ hw)
  have hdv : d ≠ v := fun hdv => hv (hdv ▸ h.walks hd)
  have hrootv : s.root ≠ v := fun hr => hv (hr ▸ mem_cons_self)
  refine ⟨?_, fun w => ?_, fun {w p} hw hp => ?_, fun {t' w} hw => ?_, fun hw => hmem (h.owed hw),
    fun hp => hca.mem_iff.2 (mem_cons_of_mem _ (h.pinned hp)), ?_⟩
  · exact halv.nodup_iff.2 (nodup_cons.2 ⟨hv, h.nodup⟩)
  · have hkids : s1.kids w = s.kids w + if directory ∧ d = w then 1 else 0 := by
      have hcongr : (s.cached ++ s.orphaned).countP (fun x => s1.parent x = some w) = s.kids w :=
        countP_congr fun x hx => by simp [hs1, hne hx]
      refine (hlis.countP_eq _).trans ?_
      rw [countP_cons, hcongr]
      by_cases hd : directory <;> simp [hs1]
    have hheld : s1.held w + _ = _ := held_update rfl w
    have hbs : s1.base w = s.base w + if directory ∧ d = w then 1 else 0 := by
      rw [base, base]
      change _ + (if s.pinned w then 1 else 0) + (if w = s.root then s.rootRefs else 0) = _
      omega
    have howed : s1.owed = s.owed := rfl
    rw [count_cons_add] at hheld
    have hc := h.counted w
    rw [hbs, howed]
    by_cases hw : w = v
    · subst hw
      have h1 : s.held w = 0 := held_eq_zero.2 fun t hw => hv (h.walks hw)
      have h2 : s.owed.count w = 0 := count_eq_zero.2 fun hm => hv (h.owed hm)
      have h3 : s.kids w = 0 := by
        refine Nat.eq_zero_of_not_pos fun hpos => ?_
        obtain ⟨x, hx, hp⟩ := countP_pos_iff.1 hpos
        exact hv (h.parents hx (by simpa using hp))
      have h4 : s.base w = 0 := by simp [base, h3, hpin, Ne.symm hrootv]
      have hcnt : s1.refcount w = 1 := by simp [hs1]
      simp only [hdv, and_false, if_false, if_true] at hheld ⊢
      omega
    · have hcnt : s1.refcount w = s.refcount w + if directory ∧ d = w then 1 else 0 := by
        by_cases hdw : d = w
        · subst hdw
          cases hdir : directory <;> simp [hs1, hw, hdir]
        · cases hdir : directory <;> simp [hs1, hw, hdir, hdw, Ne.symm hdw]
      simp only [Ne.symm hw, if_false] at hheld
      omega
  · by_cases hwv : w = v
    · subst hwv
      have hp : directory = true ∧ d = p := by simpa [hs1] using hp
      exact hmem (hp.2 ▸ h.walks hd)
    · have hp : s.parent w = some p := by simpa [hs1, hwv] using hp
      exact hmem (h.parents ((mem_cons.1 (hlis.mem_iff.1 hw)).resolve_left hwv) hp)
  · rcases mem_update_walks hw with hw | hw
    · rcases mem_cons.1 hw with rfl | hw
      · exact halv.mem_iff.2 mem_cons_self
      · exact hmem (h.walks hw)
    · exact hmem (h.walks hw)
  · exact ⟨by simpa [hs1, hrootv] using h.root.1, h.root.2⟩

theorem Balanced.unmount (h : s.Balanced) : (s.unmountStep ok).Balanced := by
  have hsame : ∀ (unmounting : Bool) (phase : Phase), Balanced { s with unmounting, phase } :=
    fun _ _ => ⟨h.nodup, h.counted, h.parents, h.walks, h.owed, h.pinned, h.root⟩
  unfold unmountStep giveUp
  split
  · exact hsame _ _
  · split <;> exact hsame _ _
  · split <;> exact hsame _ _
  · exact hsame _ _
  · exact hsame _ _
  · split <;> exact hsame _ _
  · split <;> exact hsame _ _
  · exact h

theorem Balanced.step (h : s.Balanced) (hs : s.step a = some s') : s'.Balanced := by
  cases a with
  | cross t =>
    obtain ⟨-, ⟨⟩⟩ := ite_none_left_eq_some.1 hs
    exact h.take mem_cons_self
  | incref t v =>
    obtain ⟨hv, rfl⟩ := of_guard hs
    exact h.take (h.walks hv)
  | get t d v =>
    obtain ⟨⟨-, -, hv⟩, rfl⟩ := of_guard hs
    exact h.take (mem_cons_of_mem _ (mem_append_left _ hv))
  | fill t d v k directory =>
    obtain ⟨⟨-, hd, hv, hp⟩, rfl⟩ := of_guard hs
    exact h.fill hd hv (by simpa using hp)
  | parentOf t v =>
    obtain ⟨hv, rfl⟩ := of_guard hs
    refine h.take ?_
    have hva := h.walks hv
    cases hp : s.parent v with
    | none => simpa [World.parentOf, hp] using hva
    | some p =>
      have hpa : p ∈ s.alive := by
        rcases mem_cons.1 hva with rfl | hva
        · simp [h.root.1] at hp
        · exact h.parents hva hp
      simpa [World.parentOf, hp] using hpa
  | decref t v =>
    obtain ⟨hv, rfl⟩ := of_guard hs
    exact h.drop hv
  | evict v =>
    obtain ⟨⟨-, hv, hr⟩, rfl⟩ := of_guard hs
    exact h.leave ((perm_cons_erase hv).append_right _)
      (fun hw hne => (mem_erase_of_ne hne).2 hw) hr
  | reap v =>
    obtain ⟨⟨hv, hr⟩, rfl⟩ := of_guard hs
    exact h.leave (((perm_cons_erase hv).append_left _).trans perm_middle)
      (fun hw _ => hw) hr
  | settle v =>
    obtain ⟨hv, rfl⟩ := of_guard hs
    exact h.settle hv
  | unmount ok =>
    cases hs
    exact h.unmount

/-! ## The scan -/

/-- What the scan has established stays so while walks only drop and double references. -/
theorem Certain.of_support (hc : s.Certain) (hphase : s'.phase = s.phase)
    (hfg : s'.unmounting = s.unmounting) (horp : s.orphaned = [] → s'.orphaned = [])
    (hsame : s.locked → s'.root = s.root ∧ s'.rootRefs = s.rootRefs ∧ s'.cached = s.cached ∧
      s'.parent = s.parent ∧ s'.pinned = s.pinned)
    (hheld : ∀ v, 0 < s'.held v → 0 < s.held v) : s'.Certain := by
  have hwalks : (∀ t, s.walks t = []) → ∀ t, s'.walks t = [] := by
    intro hnone t
    by_contra hne
    obtain ⟨v, hv⟩ := exists_mem_of_ne_nil _ hne
    have hpos := hheld v (held_pos hv)
    have h0 : s.held v = 0 := held_eq_zero.2 fun t => by simp [hnone t]
    omega
  unfold Certain at hc ⊢
  rw [hphase]
  split at hc
  case h_1 => trivial
  case h_2 => rwa [hfg]
  case h_3 => rwa [hfg]
  case h_4 => exact ⟨hfg ▸ hc.1, horp hc.2⟩
  case h_5 rest actual expected hp =>
    obtain ⟨hu, ho, done, hca, hexp, hact⟩ := hc
    obtain ⟨hrt, hrf, hcach, hpar, hpin⟩ := hsame (by simp [locked, hp])
    have hexpected : s'.expectedOf = s.expectedOf := by
      funext v
      simp [expectedOf, hpar, hpin]
    have hbs : s'.base = s.base := by
      funext v
      simp [base, kids, hcach, ho, horp ho, hpar, hpin, hrt, hrf]
    refine ⟨hfg ▸ hu, horp ho, done, hcach ▸ hca, by rw [hexp, hrf, hexpected], ?_⟩
    rw [hrt, hbs]
    refine le_trans (Nat.add_le_add_left ?_ _) hact
    exact countP_mono_left fun v _ hv => by simpa using hheld v (by simpa using hv)
  case h_6 => exact ⟨hfg ▸ hc.1, hwalks hc.2⟩
  case h_7 => exact ⟨hfg ▸ hc.1, hwalks hc.2⟩

/-- Before the scan and after a failed one, a walk may gain references. -/
theorem Certain.of_gain (hc : s.Certain) (hl : s.locked = false) (hv : v ∈ s.walks t)
    (hphase : s'.phase = s.phase) (hfg : s'.unmounting = s.unmounting)
    (horp : s'.orphaned = s.orphaned) : s'.Certain := by
  have hwk : ¬∀ t, s.walks t = [] := fun h => by simp [h t] at hv
  unfold Certain at hc ⊢
  rw [hphase, hfg, horp]
  split at hc
  case h_1 => trivial
  case h_2 => exact hc
  case h_3 => exact hc
  case h_4 => exact hc
  case h_5 hp => simp [locked, hp] at hl
  case h_6 => exact absurd hc.2 hwk
  case h_7 => exact absurd hc.2 hwk

theorem sum_map_ite [DecidablePred p] (vs : List Nat) :
    (vs.map fun v => if p v then 1 else 0).sum = vs.countP fun v => p v := by
  induction vs with
  | nil => rfl
  | cons v vs ih =>
    rw [map_cons, sum_cons, countP_cons]
    simp only [decide_eq_true_eq]
    omega

/-- Every vnode with a parent is counted once among the children of the vnodes there are. -/
theorem sum_children {parent : Nat → Option Nat} {vs ws : List Nat} (hn : vs.Nodup)
    (hp : ∀ w ∈ ws, ∀ p, parent w = some p → p ∈ vs) :
    (vs.map fun v => ws.countP fun w => parent w = some v).sum =
      (ws.map fun w => if (parent w).isSome then 1 else 0).sum := by
  induction ws with
  | nil => simp
  | cons w ws ih =>
    have hone : (vs.map fun v => if parent w = some v then 1 else 0).sum =
        if (parent w).isSome then 1 else 0 := by
      cases hw : parent w with
      | none => simp
      | some p =>
        have hmem := hp w mem_cons_self p hw
        rw [sum_map_ite]
        exact (countP_congr fun x _ => by simp [@eq_comm _ x]).trans (count_eq_one_of_mem hn hmem)
    have hcons : (fun v => (w :: ws).countP fun w => parent w = some v) =
        fun v => (ws.countP fun w => parent w = some v) + if parent w = some v then 1 else 0 := by
      simp [countP_cons]
    rw [hcons, sum_map_add, ih fun x hx => hp x (mem_cons_of_mem _ hx), hone,
      map_cons, sum_cons, Nat.add_comm]

theorem Balanced.sum_base (h : s.Balanced) (ho : s.orphaned = []) :
    ((s.root :: s.cached).map s.base).sum = s.rootRefs + (s.cached.map s.expectedOf).sum := by
  have hn : (s.root :: s.cached).Nodup := by
    simpa [alive, ho] using h.nodup
  have hkids : ((s.root :: s.cached).map s.kids).sum =
      (s.cached.map fun w => if (s.parent w).isSome then 1 else 0).sum := by
    have hk : s.kids = fun v => s.cached.countP fun w => s.parent w = some v := by
      funext v
      simp [kids, ho]
    rw [hk]
    refine sum_children hn fun w hw p hp => ?_
    simpa [alive, ho] using h.parents (mem_append_left _ hw) hp
  have hrt : ∀ v ∈ s.cached, (if v = s.root then s.rootRefs else 0) = 0 := fun v hv => by
    rw [if_neg]
    rintro rfl
    exact (nodup_cons.1 hn).1 hv
  have hpin : s.pinned s.root = false := by
    by_contra hp
    exact (nodup_cons.1 hn).1 (h.pinned (by simpa using hp))
  have hbs : (s.cached.map s.base).sum = (s.cached.map s.kids).sum +
      (s.cached.map fun v => if s.pinned v then 1 else 0).sum := by
    rw [← sum_map_add]
    congr 1
    exact map_congr_left fun v hv => by rw [base, hrt v hv, Nat.add_zero]
  have hexp : (s.cached.map s.expectedOf).sum =
      (s.cached.map fun v => if s.pinned v then 1 else 0).sum +
        (s.cached.map fun w => if (s.parent w).isSome then 1 else 0).sum := by
    rw [← sum_map_add]
    rfl
  have hbroot : s.base s.root = s.kids s.root + s.rootRefs := by simp [base, hpin]
  rw [map_cons, sum_cons] at hkids ⊢
  omega

theorem Balanced.read (h : s.Balanced) (v : Nat) :
    s.base v + (if 0 < s.held v then 1 else 0) ≤ s.refcount v := by
  have := h.counted v
  split <;> omega

theorem Certain.unmount (hb : s.Balanced) (hc : s.Certain) : (s.unmountStep ok).Certain := by
  unfold Certain at hc
  split at hc
  case h_1 hp => simp [hp]
  case h_2 hp => cases ok <;> simp [hp, giveUp, hc]
  case h_3 hp =>
    simp only [unmountStep, hp]
    split
    case isTrue => simp [giveUp]
    case isFalse ho => exact ⟨hc, by simpa using ho⟩
  case h_4 hp =>
    obtain ⟨hu, ho⟩ := hc
    simp only [unmountStep, hp]
    refine ⟨hu, ho, [], rfl, rfl, ?_⟩
    show ([s.root].map s.base).sum + [s.root].countP (fun v => 0 < s.held v) ≤ s.refcount s.root
    simpa using hb.read s.root
  case h_5 rest actual expected hp =>
    obtain ⟨hu, ho, done, hca, hexp, hact⟩ := hc
    cases rest with
    | cons v rest =>
      simp only [unmountStep, hp]
      refine ⟨hu, ho, done ++ [v], by simp [hca], ?_, ?_⟩
      · show expected + s.expectedOf v = s.rootRefs + ((done ++ [v]).map s.expectedOf).sum
        simp [hexp, Nat.add_assoc]
      have hrd := hb.read v
      have hsum : ((s.root :: (done ++ [v])).map s.base).sum +
          (s.root :: (done ++ [v])).countP (fun v => 0 < s.held v) =
            (((s.root :: done).map s.base).sum + (s.root :: done).countP (fun v => 0 < s.held v)) +
            (s.base v + if 0 < s.held v then 1 else 0) := by
        rw [← cons_append, map_append, sum_append, countP_append]
        simp only [map_cons, map_nil, sum_cons, sum_nil, countP_cons,
          countP_nil, decide_eq_true_eq]
        omega
      exact hsum ▸ Nat.add_le_add hact hrd
    | nil =>
      simp only [unmountStep, hp]
      split
      case isTrue => simp [giveUp]
      rename_i hle
      rw [append_nil] at hca
      subst hca
      rw [hb.sum_base ho] at hact
      have hnone : (s.root :: s.cached).countP (fun v => 0 < s.held v) = 0 := by omega
      refine ⟨hu, fun t => eq_nil_iff_forall_not_mem.2 fun v hv => ?_⟩
      have hv' : v ∈ s.root :: s.cached := by simpa [alive, ho] using hb.walks hv
      have := countP_eq_zero.1 hnone v hv'
      have hpos : 0 < s.held v := held_pos hv
      exact this (by simpa using hpos)
  case h_6 hp => cases ok <;> simp [hp, giveUp, hc]
  case h_7 hp => simpa [hp] using hc

theorem Certain.step (hb : s.Balanced) (hc : s.Certain) (hq : s.Quiet a) (hs : s.step a = some s') :
    s'.Certain := by
  cases a with
  | cross t =>
    obtain ⟨hfg, ⟨⟩⟩ := ite_none_left_eq_some.1 hs
    unfold Certain at hc ⊢
    split at hc
    case h_1 hp => simp [take, setCount, hp]
    case h_2 => exact absurd hc hfg
    case h_3 => exact absurd hc hfg
    all_goals exact absurd hc.1 hfg
  | incref t v =>
    obtain ⟨hv, rfl⟩ := of_guard hs
    refine hc.of_support rfl rfl id (fun _ => ⟨rfl, rfl, rfl, rfl, rfl⟩) fun w hw => ?_
    rw [held_take] at hw
    by_cases hwv : v = w
    · exact hwv ▸ held_pos hv
    · simpa [hwv] using hw
  | get t d v =>
    obtain ⟨⟨hl, hd, -⟩, rfl⟩ := of_guard hs
    exact hc.of_gain (by simpa using hl) hd rfl rfl rfl
  | fill t d v k directory =>
    obtain ⟨⟨hl, hd, -⟩, rfl⟩ := of_guard hs
    exact hc.of_gain (by simpa using hl) hd rfl rfl rfl
  | parentOf t v =>
    obtain ⟨hv, rfl⟩ := of_guard hs
    exact hc.of_gain hq hv rfl rfl rfl
  | decref t v =>
    obtain ⟨hv, rfl⟩ := of_guard hs
    refine hc.of_support rfl rfl id (fun _ => ⟨rfl, rfl, rfl, rfl, rfl⟩) fun w hw => ?_
    have := held_drop (w := w) hv
    omega
  | evict v =>
    obtain ⟨⟨hl, -⟩, rfl⟩ := of_guard hs
    exact hc.of_support rfl rfl id (fun h => absurd h hl) fun _ hw => hw
  | reap v =>
    obtain ⟨⟨hv, -⟩, rfl⟩ := of_guard hs
    refine hc.of_support rfl rfl (fun ho => by simp [ho] at hv) (fun hl => ?_) fun _ hw => hw
    unfold Certain at hc
    split at hc
    case h_5 => simp [hc.2.1] at hv
    all_goals simp [locked, *] at hl
  | settle v =>
    obtain ⟨-, rfl⟩ := of_guard hs
    exact hc.of_support rfl rfl id (fun _ => ⟨rfl, rfl, rfl, rfl, rfl⟩) fun _ hw => hw
  | unmount ok =>
    cases hs
    exact hc.unmount hb

theorem phase_step (hs : s.step a = some s') :
    s'.phase = s.phase ∨ ∃ ok, s' = s.unmountStep ok := by
  cases a with
  | unmount ok => exact .inr ⟨ok, (some.inj hs).symm⟩
  | cross t =>
    obtain ⟨-, hs⟩ := ite_none_left_eq_some.1 hs
    exact .inl (some.inj hs ▸ rfl)
  | incref | get | fill | parentOf | decref | evict | reap | settle =>
    obtain ⟨-, hs⟩ := ite_none_right_eq_some.1 hs
    exact .inl (some.inj hs ▸ rfl)

/-- What a run of walks and unmount keeps. -/
structure Sound (s : World n) : Prop where
  balanced : s.Balanced
  certain : s.Certain

theorem Sound.step (h : s.Sound) (hs : Under Quiet (Advances World.step) s a s') : s'.Sound :=
  ⟨h.balanced.step hs.2, h.certain.step h.balanced hs.1 hs.2⟩

theorem Sound.torn (h : s.Sound) (hp : s.phase = .torn) : ∀ t, s.walks t = [] := by
  have hc := h.certain
  simp only [Certain, hp] at hc
  exact hc.2

/-- **No walk is left in a file system that is torn down.** From any balanced state, along every run
in which no walk takes `..` while the counts are read: when `vfs_unmount` comes to `vcache_evict`
and `ops->unmount`, no walk holds a reference, and none gains one afterwards. -/
theorem unmount_safe {as bs : List (Act n)} {s'' : World n} (hb : s.Balanced)
    (hp : s.phase = .idle) (hrun : Run (Under Quiet (Advances World.step)) s as s')
    (htorn : s'.phase = .torn) (hrest : Run (Under Quiet (Advances World.step)) s' bs s'') :
    (∀ t, s'.walks t = []) ∧ s''.phase = .torn ∧ ∀ t, s''.walks t = [] := by
  have hs : s.Sound := ⟨hb, by simp [hp]⟩
  have hs' : s'.Sound := hrun.invariant (fun h hs => h.step hs) hs
  have hs'' : s''.Sound := hrest.invariant (fun h hs => h.step hs) hs'
  have htorn' : s''.phase = .torn := by
    refine hrest.invariant (I := fun s => s.phase = .torn) (fun hp hs => ?_) htorn
    rcases phase_step hs.2 with heq | ⟨ok, rfl⟩
    · rw [heq, hp]
    · simp [hp]
  exact ⟨hs'.torn htorn, htorn', hs''.torn htorn'⟩

/-- A file system with the directory `1` cached below its root `0`, and one walk there. -/
def oneWalk : World 1 where
  root := 0
  rootRefs := 1
  parent v := if v = 1 then some 0 else none
  pinned _ := false
  cached := [1]
  orphaned := []
  refcount v := if v = 0 then 2 else if v = 1 then 1 else 0
  owed := []
  walks _ := [1]
  unmounting := false
  phase := .idle

attribute [local simp] oneWalk

theorem oneWalk_balanced : oneWalk.Balanced := by
  refine ⟨by decide, fun v => ?_, fun {v p} hv hp => ?_, fun {t v} hv => ?_, by simp,
    by simp, by decide⟩
  · match v with
    | 0 => decide
    | 1 => decide
    | v + 2 => simp [held, tally, base, kids]
  · obtain rfl : v = 1 := by simpa using hv
    obtain rfl : 0 = p := by simpa using hp
    decide
  · obtain rfl : v = 1 := by simpa using hv
    decide

/-- The walk leaves in time: it goes to the root, drops both, and the file system is torn down. -/
def leavingRun : List (Act 1) :=
  [.unmount true, .parentOf 0 1, .decref 0 1, .unmount true, .unmount true, .decref 0 0,
    .unmount true, .unmount true, .unmount true, .unmount true]

theorem unmount_safe_leavingRun :
    ∃ s', Run (Under Quiet (Advances World.step)) oneWalk leavingRun s' ∧ s'.phase = .torn ∧
      ∀ t, s'.walks t = [] := by
  refine Run.exists_and (Run.exists_of_any Run.of_foldlM_under (by decide +kernel))
    fun s' hrun hp => ?_
  exact (unmount_safe oneWalk_balanced rfl hrun hp .nil).1

/-- The root is read before the walk comes to it, and the directory after the walk has left it. -/
def missedRun : List (Act 1) :=
  [.unmount true, .unmount true, .unmount true, .unmount true, .parentOf 0 1, .decref 0 1,
    .unmount true, .unmount true, .unmount true]

/-- The sum misses a walk that takes `..` during the scan. -/
theorem scan_misses_walk :
    oneWalk.Balanced ∧ oneWalk.phase = .idle ∧
      ∃ s', Run (Advances World.step) oneWalk missedRun s' ∧ s'.phase = .torn ∧
        s'.walks 0 = [s'.root] :=
  ⟨oneWalk_balanced, rfl, Run.exists_of_any Run.of_foldlM (by decide +kernel)⟩

end Vex.Fs.Unmount.World
