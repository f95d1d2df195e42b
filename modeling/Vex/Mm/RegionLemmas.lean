import Mathlib.Data.List.TakeWhile
import Vex.Mm.Region

/-! What the region-list functions do to the partial map `pageMap`. Each function has one
lemma for its shape (`RegionsWF`) and one for the map; the vms operations are assembled from
these without looking at the loops again. -/

namespace Vex.Mm

open Lib.Intervals Ordered Region List

variable {u s e v x : Nat} {l l' a b : List Region} {r : Region} {slab : Bool}

/-! ## Finding a region -/

section
variable (ho : Ordered start stop l)
include ho

theorem seek_cases (v : Nat) :
    ((seek v l).2 = [] ∧ ∀ r ∈ l, ¬Has start stop v r) ∨
      ∃ a r b, seek v l = (a, r :: b) ∧ l = a ++ r :: b ∧
        Has start stop v r := by
  induction l with
  | nil => exact .inl ⟨rfl, by simp⟩
  | cons it rest ih =>
    obtain ⟨hit, hrs, hle⟩ := cons_iff.mp ho
    by_cases h1 : it.start ≤ v
    · by_cases h2 : v < it.stop
      · exact .inr ⟨[], it, rest, by simp [seek, h1, h2], rfl, h1, h2⟩
      rcases ih hrs with ⟨hnil, hno⟩ | ⟨a, r, b, hs, rfl, hr⟩
      · refine .inl ⟨by simp [seek, h1, h2, hnil], fun r hr => ?_⟩
        rcases mem_cons.mp hr with rfl | hr
        · exact fun h => h2 h.2
        · exact hno r hr
      · exact .inr ⟨it :: a, r, b, by simp [seek, h1, h2, hs], rfl, hr⟩
    · exact .inl ⟨by simp [seek, h1], fun r hr h => h1 ((ho.lo_le hr).trans h.1)⟩

theorem findRegion_eq_some_iff :
    findRegion l v = some r ↔ r ∈ l ∧ Has start stop v r := by
  rcases seek_cases ho v with ⟨hnil, hno⟩ | ⟨a, r', b, hs, rfl, hr⟩
  · simp only [findRegion, hnil, head?_nil, reduceCtorEq, false_iff]
    exact fun h => hno r h.1 h.2
  simp only [findRegion, hs, head?_cons, Option.some.injEq]
  constructor
  · rintro rfl
    exact ⟨by simp, hr⟩
  · rintro ⟨hm, hx⟩
    exact ho.eq_of_has (by simp) hm hr hx

theorem findRegion_eq_none_iff :
    findRegion l v = none ↔ pageMap l v = none := by
  rw [pageMap, valueAt_eq_none_iff]
  rcases seek_cases ho v with ⟨hnil, hno⟩ | ⟨a, r', b, hs, rfl, hr⟩
  · simpa [findRegion, hnil] using hno
  · simp only [findRegion, hs, head?_cons, reduceCtorEq, false_iff]
    exact fun h => h r' (by simp) hr

theorem pageMap_eq (v : Nat) :
    pageMap l v = (findRegion l v).map (·.info v) := by
  cases h : findRegion l v with
  | none => exact (findRegion_eq_none_iff ho).mp h
  | some r =>
    obtain ⟨hm, hx⟩ := (findRegion_eq_some_iff ho).mp h
    exact valueAt_of_mem ho hm hx

end

namespace RegionsWF

theorem nil : RegionsWF u [] := ⟨.nil, by simp, by simp, by simp⟩

theorem append (ha : RegionsWF u a) (hb : RegionsWF u b) (hab : ∀ r ∈ a, ∀ s ∈ b, r.stop ≤ s.start)
    : RegionsWF u (a ++ b) := by
  refine ⟨append_iff.mpr ⟨ha.ordered, hb.ordered, hab⟩, ?_, ?_, ?_⟩ <;> intro r hr <;>
    rcases mem_append.mp hr with hr | hr
  · exact ha.alignedStart r hr
  · exact hb.alignedStart r hr
  · exact ha.alignedStop r hr
  · exact hb.alignedStop r hr
  · exact ha.inside r hr
  · exact hb.inside r hr

theorem sublist (h : RegionsWF u l) (hs : List.Sublist a l) : RegionsWF u a :=
  ⟨h.ordered.sublist hs, fun r hr => h.alignedStart r (hs.mem hr),
    fun r hr => h.alignedStop r (hs.mem hr), fun r hr => h.inside r (hs.mem hr)⟩

theorem left (h : RegionsWF u (a ++ b)) : RegionsWF u a := h.sublist (by simp)

theorem right (h : RegionsWF u (a ++ b)) : RegionsWF u b := h.sublist (by simp)

theorem cross (h : RegionsWF u (a ++ b)) : ∀ r ∈ a, ∀ s ∈ b, r.stop ≤ s.start :=
  (append_iff.mp h.ordered).2.2

theorem tail (h : RegionsWF u (r :: l)) : RegionsWF u l := h.sublist (by simp)

theorem cons (hr : r.start < r.stop) (h1 : pageOffset r.start = 0) (h2 : pageOffset r.stop = 0)
    (h3 : r.stop ≤ u) (h : RegionsWF u l) (hle : ∀ s ∈ l, r.stop ≤ s.start) :
    RegionsWF u (r :: l) := by
  refine ⟨cons_iff.mpr ⟨hr, h.ordered, hle⟩, ?_, ?_, ?_⟩ <;> intro s hs <;>
    rcases mem_cons.mp hs with rfl | hs
  · exact h1
  · exact h.alignedStart s hs
  · exact h2
  · exact h.alignedStop s hs
  · exact h3
  · exact h.inside s hs

theorem map (h : RegionsWF u l) (hlo : ∀ r, (f r).start = r.start) (hhi : ∀ r, (f r).stop = r.stop)
    : RegionsWF u (l.map f) := by
  refine ⟨h.ordered.map (fun r _ => hlo r) fun r _ => hhi r, ?_, ?_, ?_⟩ <;> intro r hr <;>
    obtain ⟨s, hs, rfl⟩ := mem_map.mp hr
  · rw [hlo]; exact h.alignedStart s hs
  · rw [hhi]; exact h.alignedStop s hs
  · rw [hhi]; exact h.inside s hs

end RegionsWF

/-! ## Splitting -/

/-- Offsets of a split region: the upper half says about its addresses what the whole said. -/
theorem Region.info_above (h1 : r.start ≤ v) (h2 : v ≤ x) : (r.above v).info x = r.info x := by
  have : v - r.start + (x - v) = x - r.start := by omega
  simp [info, above, BitVec.add_assoc, ← BitVec.ofNat_add, this]

theorem Region.info_below : (r.below v).info x = r.info x := rfl

theorem pageMap_split (h : Has start stop v r) :
    pageMap (a ++ r.below v :: r.above v :: b) = pageMap (a ++ r :: b) := by
  funext x
  simp only [pageMap, valueAt_append, valueAt_cons]
  by_cases hx : Has start stop x r
  · rw [if_pos hx]
    by_cases hlt : x < v
    · rw [if_pos ⟨hx.1, hlt⟩, info_below]
    · rw [if_neg (fun h' => hlt h'.2), if_pos ⟨Nat.le_of_not_lt hlt, hx.2⟩,
        info_above h.1 (Nat.le_of_not_lt hlt)]
  · rw [if_neg hx, if_neg (fun h' => hx ⟨h'.1, lt_trans h'.2 h.2⟩),
      if_neg (fun h' => hx ⟨h.1.trans h'.1, h'.2⟩)]

/-- What a successful `split_region` leaves: the same map, cut at the address. -/
structure SplitSpec (u v : Nat) (l l' : List Region) : Prop where
  wf : RegionsWF u l'
  map : pageMap l' = pageMap l
  cut : CutAt start stop v l'
  keeps : ∀ x, CutAt start stop x l → CutAt start stop x l'

theorem cutAt_of_no_inner (h : ∀ r ∈ l, Has start stop v r → r.start = v) :
    CutAt start stop v l := by
  intro r hr
  by_cases hx : Has start stop v r
  · exact .inl (h r hr hx).ge
  simp only [Has, not_and, not_lt] at hx
  by_cases hle : r.start ≤ v
  · exact .inr (hx hle)
  · exact .inl (by omega)

theorem splitRegion_spec (wf : RegionsWF u l) (hv : pageOffset v = 0)
    (h : splitRegion slab l v = .ok l') : SplitSpec u v l l' := by
  rcases seek_cases wf.ordered v with ⟨hnil, hno⟩ | ⟨a, r, b, hs, rfl, hr⟩
  · obtain ⟨a, ha⟩ : ∃ a, seek v l = (a, []) := ⟨(seek v l).1, by rw [← hnil]⟩
    simp only [splitRegion, ha, Except.ok.injEq] at h
    subst h
    exact ⟨wf, rfl, cutAt_of_no_inner fun r hr hx => absurd hx (hno r hr), fun _ h => h⟩
  simp only [splitRegion, hs] at h
  split at h
  · rename_i heq
    cases h
    refine ⟨wf, rfl, cutAt_of_no_inner fun r' hr' hx => ?_, fun _ h => h⟩
    have h1 := (findRegion_eq_some_iff wf.ordered).mpr ⟨hr', hx⟩
    rw [(findRegion_eq_some_iff wf.ordered).mpr ⟨by simp, hr⟩] at h1
    cases h1
    exact heq
  · split at h
    · cases h
    rename_i hne _
    cases h
    have hlt : r.start < v := lt_of_le_of_ne hr.1 hne
    have hmem : r ∈ a ++ r :: b := by simp
    have hb : ∀ s ∈ b, r.stop ≤ s.start := (cons_iff.mp wf.right.ordered).2.2
    have hvb : RegionsWF u (r.above v :: b) := .cons hr.2 hv (wf.alignedStop r hmem)
      (wf.inside r hmem) wf.right.tail hb
    have hwf : RegionsWF u (r.below v :: r.above v :: b) := by
      refine .cons hlt (wf.alignedStart r hmem) hv (hr.2.le.trans (wf.inside r hmem)) hvb ?_
      intro s hs'
      rcases mem_cons.mp hs' with rfl | hs'
      · exact le_rfl
      · exact hr.2.le.trans (hb s hs')
    refine ⟨wf.left.append hwf ?_, pageMap_split hr, ?_, ?_⟩
    · intro q hq s hs'
      have hqr := wf.cross q hq r (by simp)
      rcases mem_cons.mp hs' with rfl | hs'
      · exact hqr
      rcases mem_cons.mp hs' with rfl | hs'
      · exact hqr.trans hr.1
      · exact wf.cross q hq s (by simp [hs'])
    · intro q hq
      simp only [mem_append, mem_cons] at hq
      rcases hq with hq | rfl | rfl | hq
      · exact .inr ((wf.cross q hq r (by simp)).trans hr.1)
      · exact .inr le_rfl
      · exact .inl le_rfl
      · exact .inl (hr.2.le.trans (hb q hq))
    · intro x hx q hq
      simp only [mem_append, mem_cons] at hq
      rcases hq with hq | rfl | rfl | hq
      · exact hx q (by simp [hq])
      · rcases hx r hmem with h | h
        · exact .inl h
        · exact .inr (hr.2.le.trans h)
      · rcases hx r hmem with h | h
        · exact .inl (h.trans hr.1)
        · exact .inr h
      · exact hx q (by simp [hq])

theorem splitRegion_error (h : splitRegion slab l v = .error err) :
    err = .ENOMEM ∧ slab = false := by
  unfold splitRegion at h
  iterate 2
    split at h
    · cases h
  split at h <;> cases h
  rename_i hno
  exact ⟨rfl, by simpa using hno⟩

/-! ## Free, covered and forbidden ranges -/

section
variable (ho : Ordered start stop l)
include ho

theorem rangeFree_iff :
    rangeFree s e l = true ↔ ∀ r ∈ l, r.stop ≤ s ∨ e ≤ r.start := by
  induction l with
  | nil => simp [rangeFree]
  | cons it rest ih =>
    obtain ⟨hit, hrs, hle⟩ := cons_iff.mp ho
    simp only [rangeFree, forall_mem_cons]
    split
    · split
      · simp only [Bool.false_eq_true, false_iff]
        omega
      · rw [ih hrs]
        exact ⟨fun h => ⟨.inl (by omega), h⟩, fun h => h.2⟩
    · refine ⟨fun _ => ⟨.inr (by omega), fun r hr => .inr ?_⟩, fun _ => rfl⟩
      have := hle r hr
      omega

theorem rangeFree_iff_pageMap (hse : s < e) :
    rangeFree s e l = true ↔ ∀ x, s ≤ x → x < e → pageMap l x = none := by
  rw [rangeFree_iff ho]
  simp only [pageMap, valueAt_eq_none_iff]
  constructor
  · intro h x hsx hxe r hr hx
    have := hx.1
    have := hx.2
    rcases h r hr with h | h <;> omega
  · intro h r hr
    have hne := ho.nonempty r hr
    by_contra hno
    simp only [not_or, not_le] at hno
    exact h (max s r.start) (le_max_left ..) (max_lt hse hno.2) r hr
      ⟨le_max_right .., max_lt hno.1 hne⟩

theorem coveredFrom_ge (hc : ∀ r ∈ l, c ≤ r.start ∨ Has start stop c r) :
    e ≤ coveredFrom e c l ↔ ∀ x, c ≤ x → x < e → pageMap l x ≠ none := by
  induction l generalizing c with
  | nil =>
    simp only [pageMap, valueAt_nil, ne_eq, not_true_eq_false, imp_false, not_lt]
    exact ⟨fun h x hx => h.trans hx, fun h => h c le_rfl⟩
  | cons it rest ih =>
    obtain ⟨hit, hrs, hle⟩ := cons_iff.mp ho
    have hst : ∀ x, it.stop ≤ x → pageMap (it :: rest) x = pageMap rest x := by
      intro x hx
      rw [pageMap, valueAt_cons, if_neg (fun h => by have := h.2; omega)]
      rfl
    simp only [coveredFrom]
    split
    · rename_i hcond
      have hhas : Has start stop c it := by
        rcases hc it (by simp) with h | h
        · exact ⟨hcond.1, by omega⟩
        · exact h
      rw [ih hrs fun r hr => .inl (hle r hr)]
      constructor
      · intro h x hcx hxe
        by_cases hx : x < it.stop
        · have hin : Has start stop x it := ⟨hcond.1.trans hcx, hx⟩
          simp [pageMap, valueAt_cons, hin]
        · rw [hst x (by omega)]
          exact h x (by omega) hxe
      · intro h x hx hxe
        rw [← hst x hx]
        have := hhas.2
        exact h x (by omega) hxe
    · rename_i hcond
      constructor
      · intro h x hcx hxe
        omega
      intro h
      by_contra hlt
      have hlt : c < e := by omega
      refine h c le_rfl hlt (valueAt_eq_none fun r hr hx => ?_)
      have := (ho.lo_le hr).trans hx.1
      omega

theorem rangeCovered_iff :
    rangeCovered l s e = true ↔ ∀ x, s ≤ x → x < e → pageMap l x ≠ none := by
  simp only [rangeCovered, decide_eq_true_eq, ge_iff_le]
  rcases seek_cases ho s with ⟨hnil, hno⟩ | ⟨a, r, b, hs, rfl, hr⟩
  · rw [hnil]
    simp only [coveredFrom]
    constructor
    · intro h x hsx hxe
      omega
    · intro h
      by_contra hlt
      exact h s le_rfl (by omega) (valueAt_eq_none hno)
  · have hcr := (append_iff.mp ho).2.2
    have hb := (append_iff.mp ho).2.1
    have hrb := (cons_iff.mp hb).2.2
    rw [hs, coveredFrom_ge hb]
    · refine forall_congr' fun x => forall_congr' fun hsx => forall_congr' fun hxe => ?_
      have : valueAt start stop info a x = none := by
        refine valueAt_eq_none fun q hq hx => ?_
        have := hcr q hq r (by simp)
        have := hx.2
        have := hr.1
        omega
      simp [pageMap, valueAt_append, this]
    · intro q hq
      rcases mem_cons.mp hq with rfl | hq
      · exact .inr hr
      · exact .inl (hr.2.le.trans (hrb q hq))

theorem writeForbidden_iff :
    writeForbidden e l = true ↔ ∃ r ∈ l, r.start < e ∧ r.mayWrite = false := by
  induction l with
  | nil => simp [writeForbidden]
  | cons it rest ih =>
    obtain ⟨hit, hrs, hle⟩ := cons_iff.mp ho
    simp only [writeForbidden]
    split
    · rename_i hlt
      simp [ih hrs, hlt]
    simp only [Bool.false_eq_true, false_iff, not_exists, not_and]
    intro r hr
    have := ho.lo_le hr
    omega

/-- The first loop of `vms_protect` refuses exactly the ranges with a page that may never be
written. -/
theorem writeForbidden_seek_iff (hcov : ∀ x, s ≤ x → x < e → pageMap l x ≠ none) (hse : s < e) :
    writeForbidden e (seek s l).2 = true ↔
      ∃ x i, s ≤ x ∧ x < e ∧ pageMap l x = some i ∧ i.mayWrite = false := by
  rcases seek_cases ho s with ⟨_, hno⟩ | ⟨a, r, b, hs, rfl, hr⟩
  · exact absurd (valueAt_eq_none hno) (hcov s le_rfl hse)
  have hb := (append_iff.mp ho).2.1
  have hcr := (append_iff.mp ho).2.2
  have hrb := (cons_iff.mp hb).2.2
  rw [hs, writeForbidden_iff hb]
  constructor
  · rintro ⟨q, hq, hqe, hqw⟩
    have hne := hb.nonempty q hq
    have hsq : s < q.stop := by
      rcases mem_cons.mp hq with rfl | hq
      · exact hr.2
      · exact hr.2.trans_le ((hrb q hq).trans hne.le)
    have hin : Has start stop (max s q.start) q :=
      ⟨le_max_right .., max_lt hsq hne⟩
    refine ⟨max s q.start, _, le_max_left .., max_lt hse hqe,
      valueAt_of_mem ho (by simp [hq]) hin, hqw⟩
  · rintro ⟨x, i, hsx, hxe, hi, hw⟩
    obtain ⟨q, hq, hx, rfl⟩ := (valueAt_eq_some_iff ho).mp hi
    rcases mem_append.mp hq with hq | hq
    · have := hcr q hq r (by simp)
      have := hx.2
      have := hr.1
      omega
    · exact ⟨q, hq, hx.1.trans_lt hxe, hw⟩

end

/-! ## Inserting and taking out -/

theorem insertRegion_eq (region : Region) (l : List Region) :
    insertRegion region l = l.takeWhile (·.start < region.start) ++
      region :: l.dropWhile (·.start < region.start) := by
  induction l with
  | nil => rfl
  | cons it rest ih =>
    by_cases h : it.start < region.start <;> simp [insertRegion, h, ih]

theorem lt_of_mem_takeWhile (h : r ∈ l.takeWhile (·.start < s)) : r.start < s := by
  simpa using mem_takeWhile_imp h

theorem takeWhile_start_eq_filter (ho : Ordered start stop l) :
    l.takeWhile (·.start < s) = l.filter (·.start < s) := by
  induction l with
  | nil => rfl
  | cons it rest ih =>
    obtain ⟨hit, hrs, hle⟩ := cons_iff.mp ho
    by_cases h : it.start < s
    · rw [takeWhile_cons_of_pos (by simpa using h), filter_cons_of_pos (by simpa using h), ih hrs]
    rw [takeWhile_cons_of_neg (by simpa using h), filter_cons_of_neg (by simpa using h)]
    refine (filter_eq_nil_iff.mpr fun r hr => ?_).symm
    have := hle r hr
    simp only [decide_eq_true_eq]
    omega

theorem le_of_mem_dropWhile (ho : Ordered start stop l)
    (h : r ∈ l.dropWhile (·.start < s)) : s ≤ r.start := by
  induction l with
  | nil => cases h
  | cons it rest ih =>
    obtain ⟨hit, hrs, hle⟩ := cons_iff.mp ho
    by_cases hlt : it.start < s
    · rw [dropWhile_cons_of_pos (by simpa using hlt)] at h
      exact ih hrs h
    rw [dropWhile_cons_of_neg (by simpa using hlt)] at h
    have := ho.lo_le h
    omega

theorem insertRegion_spec (region : Region) (wf : RegionsWF u l) (hlt : region.start < region.stop)
    (h1 : pageOffset region.start = 0)
    (h2 : pageOffset region.stop = 0) (h3 : region.stop ≤ u)
    (hfree : rangeFree region.start region.stop l = true) :
    RegionsWF u (insertRegion region l) ∧ pageMap (insertRegion region l) = fun x =>
      if region.start ≤ x ∧ x < region.stop then some (region.info x) else pageMap l x := by
  rw [rangeFree_iff wf.ordered] at hfree
  have hspl := takeWhile_append_dropWhile (p := (·.start < region.start)) (l := l)
  have hbef : ∀ q ∈ l.takeWhile (·.start < region.start), q.stop ≤ region.start := by
    intro q hq
    have hq' := lt_of_mem_takeWhile hq
    rcases hfree q (takeWhile_sublist _ |>.mem hq) with h | h <;> omega
  have haft : ∀ q ∈ l.dropWhile (·.start < region.start), region.stop ≤ q.start := by
    intro q hq
    have hql : q ∈ l := dropWhile_sublist _ |>.mem hq
    have hq' := le_of_mem_dropWhile wf.ordered hq
    have := wf.ordered.nonempty q hql
    rcases hfree q hql with h | h <;> omega
  rw [insertRegion_eq]
  constructor
  · refine (wf.sublist (takeWhile_sublist _)).append
      (.cons hlt h1 h2 h3 (wf.sublist (dropWhile_sublist _)) haft) ?_
    intro q hq q' hq'
    rcases mem_cons.mp hq' with rfl | hq'
    · exact hbef q hq
    · exact (hbef q hq).trans (hlt.le.trans (haft q' hq'))
  · funext x
    by_cases hx : region.start ≤ x ∧ x < region.stop
    · have hnone : valueAt start stop info
          (l.takeWhile (·.start < region.start)) x = none :=
        valueAt_eq_none fun q hq h => by have := hbef q hq; have := h.2; omega
      have hhas : Has start stop x region := hx
      rw [pageMap, valueAt_append, hnone, valueAt_cons, if_pos hhas, if_pos hx]
      rfl
    · have hhas : ¬Has start stop x region := hx
      conv_rhs => rw [if_neg hx, ← hspl]
      rw [pageMap, pageMap, valueAt_append, valueAt_append, valueAt_cons, if_neg hhas]

theorem takeOut_eq (ho : Ordered start stop l) :
    takeOut s e l = (l.filter fun r => ¬(s ≤ r.start ∧ r.start < e),
      l.filter fun r => s ≤ r.start ∧ r.start < e) := by
  induction l with
  | nil => rfl
  | cons it rest ih =>
    obtain ⟨hit, hrs, hle⟩ := cons_iff.mp ho
    by_cases h1 : it.start < e
    · by_cases h2 : it.start < s
      · simp [takeOut, h1, h2, ih hrs]
      · simp [takeOut, h1, ih hrs, Nat.le_of_not_lt h2]
    have hall : ∀ r ∈ it :: rest, ¬(s ≤ r.start ∧ r.start < e) := by
      intro r hr
      have := ho.lo_le hr
      omega
    simp only [takeOut, h1]
    exact Prod.ext (filter_eq_self.mpr fun r hr => decide_eq_true (hall r hr)).symm
      (filter_eq_nil_iff.mpr fun r hr => by simpa using hall r hr).symm

/-- Between two cuts, taking regions out undefines exactly the range. -/
theorem takeOut_spec (wf : RegionsWF u l) (hs : CutAt start stop s l)
    (he : CutAt start stop e l) :
    RegionsWF u (takeOut s e l).1 ∧ pageMap (takeOut s e l).1 = fun x =>
      if s ≤ x ∧ x < e then none else pageMap l x := by
  rw [takeOut_eq wf.ordered]
  exact ⟨wf.sublist filter_sublist, funext (valueAt_filter_window hs he wf.ordered)⟩

/-! ## Changing rights -/

theorem protectFrom_eq (ho : Ordered start stop l) (vprot : Vprot) :
    protectFrom e vprot l =
      l.map fun r => if r.start < e then { r with vprot := vprot } else r := by
  induction l with
  | nil => rfl
  | cons it rest ih =>
    obtain ⟨hit, hrs, hle⟩ := cons_iff.mp ho
    by_cases h1 : it.start < e
    · simp [protectFrom, h1, ih hrs]
    have hsame : ∀ r ∈ rest, (if r.start < e then { r with vprot := vprot } else r) = r := by
      intro r hr
      have := hle r hr
      rw [if_neg (by omega)]
    rw [protectFrom, if_neg h1, map_cons, if_neg h1, map_congr_left hsame, map_id']

/-- The second loop of `vms_protect` on a covered range whose ends are cut. -/
theorem protect_spec (wf : RegionsWF u l) (hs : CutAt start stop s l)
    (he : CutAt start stop e l) (hcov : pageMap l s ≠ none) (vprot : Vprot) :
    RegionsWF u ((seek s l).1 ++ protectFrom e vprot (seek s l).2) ∧
      pageMap ((seek s l).1 ++ protectFrom e vprot (seek s l).2) = fun x =>
        if s ≤ x ∧ x < e then (pageMap l x).map ({ · with vprot := vprot }) else pageMap l x := by
  rcases seek_cases wf.ordered s with ⟨_, hno⟩ | ⟨a, r, b, hse, rfl, hr⟩
  · exact absurd (valueAt_eq_none hno) hcov
  have hsr : s ≤ r.start := (hs r (by simp)).resolve_right (not_le.mpr hr.2)
  let f : Region → Region := fun q =>
    if s ≤ q.start ∧ q.start < e then { q with vprot := vprot } else q
  have hlo : ∀ q, (f q).start = q.start := fun q => by simp only [f]; split <;> rfl
  have hhi : ∀ q, (f q).stop = q.stop := fun q => by simp only [f]; split <;> rfl
  have hrs : ∀ q ∈ r :: b, s ≤ q.start := fun q hq => hsr.trans (wf.right.ordered.lo_le hq)
  have hmap : a ++ protectFrom e vprot (r :: b) = (a ++ r :: b).map f := by
    rw [protectFrom_eq wf.right.ordered, map_append]
    congr 1
    · have hsame : ∀ q ∈ a, f q = q := by
        intro q hq
        have h1 := (wf.cross q hq r (by simp)).trans hr.1
        have h2 := wf.ordered.nonempty q (by simp [hq])
        exact if_neg (by omega)
      rw [map_congr_left hsame, map_id']
    · refine map_congr_left fun q hq => ?_
      simp [f, hrs q hq]
  rw [hse, hmap]
  refine ⟨wf.map hlo hhi, funext fun x => ?_⟩
  rw [pageMap, valueAt_map (fun q _ => hlo q) fun q _ => hhi q]
  split
  · rename_i hx
    rw [pageMap, ← valueAt_map_val]
    refine valueAt_congr fun q hq hqx => ?_
    have hin : s ≤ q.start ∧ q.start < e := by
      have := hqx.1
      have := hqx.2
      rcases hs q hq with h | h <;> omega
    simp only [f, if_pos hin]
    rfl
  · rename_i hx
    refine valueAt_congr fun q hq hqx => ?_
    have hout : ¬(s ≤ q.start ∧ q.start < e) := by
      have := hqx.1
      have := hqx.2
      rcases he q hq with h | h <;> omega
    simp only [f, if_neg hout]

theorem mem_seek_takeWhile (wf : RegionsWF u l) (hs : CutAt start stop s l)
    (hcov : pageMap l s ≠ none) :
    r ∈ (seek s l).2.takeWhile (·.start < e) ↔ r ∈ l ∧ s ≤ r.start ∧ r.start < e := by
  rcases seek_cases wf.ordered s with ⟨_, hno⟩ | ⟨a, r0, b, hse, rfl, hr0⟩
  · exact absurd (valueAt_eq_none hno) hcov
  have hsta : s ≤ r0.start := (hs r0 (by simp)).resolve_right (not_le.mpr hr0.2)
  rw [hse]
  constructor
  · intro hr
    have hmem : r ∈ r0 :: b := (takeWhile_sublist _).mem hr
    exact ⟨by simpa using .inr (by simpa using hmem),
      hsta.trans (wf.right.ordered.lo_le hmem), lt_of_mem_takeWhile hr⟩
  · rintro ⟨hmem, h1, h2⟩
    rcases mem_append.mp hmem with hmem | hmem
    · have := wf.cross r hmem r0 (by simp)
      have := wf.ordered.nonempty r (by simp [hmem])
      have := hr0.1
      omega
    · rw [takeWhile_start_eq_filter wf.right.ordered]
      exact mem_filter.mpr ⟨hmem, by simpa using h2⟩

/-! ## Placing a mapping -/

/-- What makes an address a good place for a new mapping. -/
structure Gap (size : Nat) (l : List Region) (at' : Nat) : Prop where
  aligned : pageOffset at' = 0
  above : VMS_MMAP_MIN ≤ at'
  below : at' + size ≤ VMS_MMAP_TOP
  free : ∀ r ∈ l, r.stop ≤ at' ∨ at' + size ≤ r.start

/-- The addresses between `g`, where the regions of `a` have ended, and `top`, where those of
`b` have not begun, have room below `top`. -/
theorem Gap.of_room (hsz : pageOffset size = 0) (hmin : VMS_MMAP_MIN ≤ g)
    (ha : ∀ r ∈ a, r.stop ≤ g) (htop : pageOffset top = 0) (hle : top ≤ VMS_MMAP_TOP)
    (hb : ∀ r ∈ b, top ≤ r.start) (hrm : top > g ∧ top - g ≥ size) :
    Gap size (a ++ b) (top - size) := by
  refine ⟨?_, by omega, by omega, fun r hr => ?_⟩
  · simp only [pageOffset, PAGE_SIZE] at hsz htop ⊢
    omega
  · rcases mem_append.mp hr with hr | hr
    · exact .inl ((ha r hr).trans (by omega))
    · exact .inr (by have := hb r hr; omega)

theorem highestGapFrom_gap (wf : RegionsWF u (a ++ b)) (hsz : pageOffset size = 0)
    (hmin : VMS_MMAP_MIN ≤ g) (ha : ∀ r ∈ a, r.stop ≤ g)
    (hout : ∀ x, out = some x → Gap size (a ++ b) x) (h : highestGapFrom size g out b = some x) :
    Gap size (a ++ b) x := by
  induction b generalizing a g out with
  | nil =>
    rw [highestGapFrom] at h
    split at h
    · rename_i hrm
      cases h
      exact .of_room hsz hmin ha pageOffset_mmapTop le_rfl (by simp) hrm
    · exact hout x h
  | cons it rest ih =>
    set gapEnd := if it.start < VMS_MMAP_TOP then it.start else VMS_MMAP_TOP with hend
    have hend' : pageOffset gapEnd = 0 ∧ gapEnd ≤ VMS_MMAP_TOP ∧ gapEnd ≤ it.start := by
      rw [hend]
      split
      · exact ⟨wf.alignedStart it (by simp), by omega, le_rfl⟩
      · exact ⟨pageOffset_mmapTop, le_rfl, by omega⟩
    set out' := if gapEnd > g ∧ gapEnd - g ≥ size then some (gapEnd - size) else out with hout'
    have hgood : ∀ x, out' = some x → Gap size (a ++ it :: rest) x := by
      intro x hx
      rw [hout'] at hx
      split at hx
      · rename_i hrm
        cases hx
        exact .of_room hsz hmin ha hend'.1 hend'.2.1
          (fun r hr => hend'.2.2.trans (wf.right.ordered.lo_le hr)) hrm
      · exact hout x hx
    have hunf : highestGapFrom size g out (it :: rest) =
        if it.start ≥ VMS_MMAP_TOP then out'
        else highestGapFrom size (if it.stop > g then it.stop else g) out' rest := rfl
    rw [hunf] at h
    split at h
    · exact hgood x h
    have happ : a ++ it :: rest = (a ++ [it]) ++ rest := by simp
    rw [happ] at wf hgood ⊢
    refine ih wf ?_ ?_ hgood h
    · split <;> omega
    intro r hr
    rcases mem_append.mp hr with hr | hr
    · have := ha r hr
      split <;> omega
    · rw [mem_singleton.mp hr]
      split <;> omega

/-- `find_highest_gap` finds only free, aligned room between the two placement limits. -/
theorem findHighestGap_gap (wf : RegionsWF u l) (hsz : pageOffset size = 0)
    (h : findHighestGap l size = some x) : Gap size l x :=
  highestGapFrom_gap (a := []) wf hsz le_rfl (by simp) (by simp) h

theorem rangeValid_iff : rangeValid u s e = true ↔
    pageOffset s = 0 ∧ pageOffset e = 0 ∧ s < e ∧ e ≤ u := by
  unfold rangeValid
  split
  · simp only [Bool.false_eq_true]
    tauto
  · simp only [decide_eq_true_eq]
    tauto

end Vex.Mm
