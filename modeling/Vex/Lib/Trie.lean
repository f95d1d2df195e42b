import Mathlib.Data.Nat.Basic
import Mathlib.Order.Basic

/-! Tables in memory, linked into a tree of fixed height. A table has `k` entries; an entry of a
level may lead to a table of the level below. An address is its digits, one for every level, and
the descent along them stops at the first entry that leads nowhere. In a tree no table is come by
on two ways, so that writing an entry, or hanging a new table into one, is seen by exactly the
addresses whose digits lead there. -/

namespace Vex.Lib.Trie

open Function

variable {P E : Type} {k : Nat}

section
variable (next : Nat → E → Option P) (mem : P → Fin k → E)

/-- Where a descent along the digits `d` stops, from a table of a level on. -/
def stop (d : Nat → Fin k) : Nat → P → Nat × P
  | 0, t => (0, t)
  | l + 1, t =>
    match next (l + 1) (mem t (d (l + 1))) with
    | some t' => stop d l t'
    | none => (l + 1, t)

/-- The entry at which the descent stops, with its level. -/
def found (n : Nat) (root : P) (d : Nat → Fin k) : Nat × E :=
  let (l, t) := stop next mem d n root
  (l, mem t (d l))

/-- The descent along `d` comes by the table at the level. -/
inductive At (n : Nat) (root : P) (d : Nat → Fin k) : Nat → P → Prop
  | root : At n root d n root
  | down {l t t'} : At n root d (l + 1) t → next (l + 1) (mem t (d (l + 1))) = some t' →
      At n root d l t'

/-- The digits agree from the level on. -/
def Agree (n l : Nat) (d d' : Nat → Fin k) : Prop := ∀ j, l ≤ j → j ≤ n → d j = d' j

/-- No table is come by on two ways, all of them are in use, and the entries of the last level
lead nowhere. -/
structure Tree (n : Nat) (root : P) (used : P → Prop) : Prop where
  unique : ∀ {d d' l l' t}, At next mem n root d l t → At next mem n root d' l' t →
    l = l' ∧ Agree n (l + 1) d d'
  used : ∀ {d l t}, At next mem n root d l t → used t
  last : ∀ e, next 1 e = none
  pos : 0 < n

end

variable {next : Nat → E → Option P} {mem : P → Fin k → E} {n : Nat} {root : P}
  {used : P → Prop} {d d' : Nat → Fin k} {l : Nat} {t : P}

/-! ## Descents -/

theorem Agree.symm (h : Agree n l d d') : Agree n l d' d := fun j hl hn => (h j hl hn).symm

theorem Agree.cons (h : Agree n (l + 1) d d') (hl : d l = d' l) : Agree n l d d' := by
  intro j hj hn
  rcases Nat.eq_or_lt_of_le hj with rfl | hlt
  · exact hl
  · exact h j hlt hn

theorem Agree.mono (h : Agree n l d d') {l' : Nat} (hle : l ≤ l') : Agree n l' d d' :=
  fun j hj hn => h j (hle.trans hj) hn

namespace At

section
variable (h : At next mem n root d l t)
include h

theorem le : l ≤ n := by
  induction h with
  | root => exact le_rfl
  | down _ _ ih => exact Nat.le_of_succ_le ih

theorem congr (hagr : Agree n (l + 1) d d') :
    At next mem n root d' l t := by
  induction h with
  | root => exact .root
  | @down l t t' ht hnx ih =>
    refine .down (ih (hagr.mono (Nat.le_succ _))) ?_
    rw [← hagr (l + 1) le_rfl ht.le]
    exact hnx

/-- The descent goes on from where it comes by. -/
theorem stop_eq :
    stop next mem d n root = stop next mem d l t := by
  induction h with
  | root => rfl
  | down _ hnx ih => rw [ih, stop, hnx]

theorem stop_eq_self (hl : 0 < l) (hnone : next l (mem t (d l)) = none) :
    stop next mem d n root = (l, t) := by
  obtain ⟨l, rfl⟩ := Nat.exists_eq_succ_of_ne_zero hl.ne'
  rw [h.stop_eq, stop, hnone]

theorem found_eq (hl : 0 < l) (hnone : next l (mem t (d l)) = none) :
    found next mem n root d = (l, mem t (d l)) := by
  simp only [found, h.stop_eq_self hl hnone]

end

end At

/-! ## Writes -/

section
variable [DecidableEq P]

/-- Memory with one entry written. -/
abbrev put (mem : P → Fin k → E) (t : P) (i : Fin k) (e : E) : P → Fin k → E :=
  update mem t (update (mem t) i e)

theorem put_apply (mem : P → Fin k → E) (t : P) (i : Fin k) (e : E) (s : P) (j : Fin k) :
    put mem t i e s j = if s = t ∧ j = i then e else mem s j := by
  rw [put, update_apply]
  split
  case isTrue hs =>
    rw [update_apply, hs]
    simp
  case isFalse hs => simp [hs]

/-- Memory with a table filled and an entry that leads to it. -/
abbrev hang (mem : P → Fin k → E) (q : P) (c : Fin k → E) (t : P) (i : Fin k) (e : E) :
    P → Fin k → E :=
  put (update mem q c) t i e

end

namespace Tree

theorem exists_at (h : Tree next mem n root used) (d : Nat → Fin k) :
    ∃ l t, At next mem n root d l t ∧ 0 < l ∧ next l (mem t (d l)) = none := by
  have hsp : ∀ {l t}, At next mem n root d l t → 0 < l →
      ∃ l t, At next mem n root d l t ∧ 0 < l ∧ next l (mem t (d l)) = none := by
    intro l
    induction l with
    | zero => exact fun _ hl => absurd hl (Nat.lt_irrefl 0)
    | succ l ih =>
      intro t hat _
      cases hnx : next (l + 1) (mem t (d (l + 1))) with
      | none => exact ⟨l + 1, t, hat, Nat.succ_pos l, hnx⟩
      | some t' =>
        cases l with
        | zero =>
          rw [h.last] at hnx
          cases hnx
        | succ l => exact ih (.down hat hnx) (Nat.succ_pos l)
  exact hsp .root h.pos

theorem at_iff_of_next {mem' : P → Fin k → E}
    (hnx : ∀ {d l t}, At next mem n root d l t →
      next l (mem' t (d l)) = next l (mem t (d l))) :
    At next mem' n root d l t ↔ At next mem n root d l t := by
  constructor
  · intro h
    induction h with
    | root => exact .root
    | down _ hdw ih => exact .down ih (by rw [← hnx ih, hdw])
  · intro h
    induction h with
    | root => exact .root
    | down hat hdw ih => exact .down ih (by rw [hnx hat, hdw])

section Set
variable {d0 : Nat → Fin k} {e : E}

/-- An address is led to an entry come by if and only if its digits agree. -/
theorem slot_iff (h : Tree next mem n root used) (hat : At next mem n root d0 l t) {l' : Nat}
    {t' : P} (hat' : At next mem n root d l' t') :
    t' = t ∧ d l' = d0 l ↔ l' = l ∧ t' = t ∧ Agree n l d d0 := by
  constructor
  · rintro ⟨rfl, hdig⟩
    obtain ⟨rfl, hagr⟩ := h.unique hat' hat
    exact ⟨rfl, rfl, hagr.cons hdig⟩
  · rintro ⟨rfl, rfl, hagr⟩
    exact ⟨rfl, hagr _ le_rfl hat.le⟩

variable [DecidableEq P]

section
variable (h : Tree next mem n root used) (hat : At next mem n root d0 l t)
include h hat

theorem next_put (hold : next l (mem t (d0 l)) = none) (hnew : next l e = none) {d : Nat → Fin k}
    {l' : Nat}
    {t' : P} (hat' : At next mem n root d l' t') :
    next l' (put mem t (d0 l) e t' (d l')) = next l' (mem t' (d l')) := by
  rw [put_apply]
  split
  case isTrue hsl =>
    obtain ⟨rfl, rfl, -⟩ := (h.slot_iff hat hat').mp hsl
    rw [hsl.2, hold, hnew]
  case isFalse => rfl

theorem set (hold : next l (mem t (d0 l)) = none) (hnew : next l e = none) :
    Tree next (put mem t (d0 l) e) n root used := by
  have hiff : ∀ {d l' t'}, At next (put mem t (d0 l) e) n root d l' t' ↔
      At next mem n root d l' t' := at_iff_of_next (h.next_put hat hold hnew)
  exact {
    unique := fun h1 h2 => h.unique (hiff.mp h1) (hiff.mp h2)
    used := fun h1 => h.used (hiff.mp h1)
    last := h.last
    pos := h.pos }

theorem found_set (hl : 0 < l) (hold : next l (mem t (d0 l)) = none) (hnew : next l e = none)
    (d : Nat → Fin k)
    [Decidable (Agree n l d d0)] :
    found next (put mem t (d0 l) e) n root d =
      if Agree n l d d0 then (l, e) else found next mem n root d := by
  have hiff : ∀ {d l' t'}, At next (put mem t (d0 l) e) n root d l' t' ↔
      At next mem n root d l' t' := at_iff_of_next (h.next_put hat hold hnew)
  obtain ⟨l', t', hat', hl', hnone⟩ := h.exists_at d
  have hnone' := (h.next_put hat hold hnew hat').trans hnone
  rw [(hiff.mpr hat').found_eq hl' hnone', put_apply]
  split
  case isTrue hsl =>
    obtain ⟨rfl, rfl, hagr⟩ := (h.slot_iff hat hat').mp hsl
    rw [if_pos hagr]
  rename_i hsl
  rw [if_neg, hat'.found_eq hl' hnone]
  intro hagr
  have hhere : At next mem n root d l t := hat.congr (hagr.symm.mono (Nat.le_succ _))
  have hdig : d l = d0 l := hagr l le_rfl hat.le
  have hsp := (hat'.stop_eq_self hl' hnone).symm.trans
    (hhere.stop_eq_self hl (by rw [hdig, hold]))
  cases hsp
  exact hsl ⟨rfl, hdig⟩

end

end Set

section Link
variable [DecidableEq P] {d0 : Nat → Fin k} {e : E} {q : P} {c : Fin k → E}

section
variable (h : Tree next mem n root used)
include h

theorem hang_apply (hq : ¬used q) {l' : Nat} {t' : P} (hat' : At next mem n root d l' t')
    (i : Fin k) :
    hang mem q c t i e t' (d l') = if t' = t ∧ d l' = i then e else mem t' (d l') := by
  have hne : t' ≠ q := fun heq => hq (heq ▸ h.used hat')
  rw [hang, put_apply, update_of_ne hne]

theorem at_hang_iff (hat : At next mem n root d0 (l + 1) t)
    (hold : next (l + 1) (mem t (d0 (l + 1))) = none) (hnew : next (l + 1) e = some q)
    (hq : ¬used q) (hc : ∀ i, next l (c i) = none) {d : Nat → Fin k} {l' : Nat} {t' : P} :
    At next (hang mem q c t (d0 (l + 1)) e) n root d l' t' ↔
      At next mem n root d l' t' ∨ (l' = l ∧ t' = q ∧ Agree n (l + 1) d d0) := by
  have htq : t ≠ q := fun heq => hq (heq ▸ h.used hat)
  have hold' : ∀ {l' t'}, At next mem n root d l' t' →
      At next (hang mem q c t (d0 (l + 1)) e) n root d l' t' := by
    intro l' t' hat'
    induction hat' with
    | root => exact .root
    | @down l' t' t'' hat' hdw ih =>
      refine .down ih ?_
      rw [h.hang_apply hq hat', if_neg, hdw]
      intro hsl
      obtain ⟨heq, rfl, -⟩ := (h.slot_iff hat hat').mp hsl
      obtain rfl : l' = l := Nat.succ.inj heq
      rw [hsl.2, hold] at hdw
      cases hdw
  constructor
  · intro hat'
    induction hat' with
    | root => exact .inl .root
    | @down l' t' t'' _ hdw ih =>
      rcases ih with hat' | ⟨rfl, rfl, hagr⟩
      · rw [h.hang_apply hq hat'] at hdw
        split at hdw
        case isTrue hsl =>
          obtain ⟨heq, rfl, hagr⟩ := (h.slot_iff hat hat').mp hsl
          obtain rfl : l' = l := Nat.succ.inj heq
          rw [hnew] at hdw
          exact .inr ⟨rfl, (Option.some.inj hdw).symm, hagr⟩
        case isFalse => exact .inl (.down hat' hdw)
      · -- the new table leads nowhere
        rw [hang, put_apply, if_neg (fun hsl => htq hsl.1.symm), update_self, hc] at hdw
        cases hdw
  · rintro (hat' | ⟨rfl, rfl, hagr⟩)
    · exact hold' hat'
    have hhere : At next mem n root d (l' + 1) t := hat.congr (hagr.symm.mono (Nat.le_succ _))
    refine .down (hold' hhere) ?_
    rw [h.hang_apply hq hhere, if_pos ⟨rfl, hagr _ le_rfl hat.le⟩, hnew]

/-- Hanging a table not in use into an entry that led nowhere. -/
theorem link (hat : At next mem n root d0 (l + 1) t)
    (hold : next (l + 1) (mem t (d0 (l + 1))) = none) (hnew : next (l + 1) e = some q)
    (hq : ¬used q) (hc : ∀ i, next l (c i) = none) :
    Tree next (hang mem q c t (d0 (l + 1)) e) n root fun s => used s ∨ s = q := by
  have hiff := @at_hang_iff P E k next mem n root used l t _ d0 e q c h hat hold hnew hq hc
  refine { unique := ?_, used := ?_, last := h.last, pos := h.pos }
  · intro d d' l1 l2 s h1 h2
    rcases hiff.mp h1 with hold1 | ⟨hl1, hs1, hagree1⟩ <;>
      rcases hiff.mp h2 with hold2 | ⟨hl2, hs2, hagree2⟩
    · exact h.unique hold1 hold2
    · exact absurd (h.used hold1) (hs2 ▸ hq)
    · exact absurd (h.used hold2) (hs1 ▸ hq)
    · subst hl1 hl2
      exact ⟨rfl, fun j hj hn => (hagree1 j hj hn).trans (hagree2 j hj hn).symm⟩
  · intro d l' s hs
    rcases hiff.mp hs with hs | ⟨-, rfl, -⟩
    · exact .inl (h.used hs)
    · exact .inr rfl

theorem found_link (hat : At next mem n root d0 (l + 1) t) (hl : 0 < l)
    (hold : next (l + 1) (mem t (d0 (l + 1))) = none)
    (hnew : next (l + 1) e = some q) (hq : ¬used q) (hc : ∀ i, next l (c i) = none)
    (d : Nat → Fin k) [Decidable (Agree n (l + 1) d d0)] :
    found next (hang mem q c t (d0 (l + 1)) e) n root d =
      if Agree n (l + 1) d d0 then (l, c (d l)) else found next mem n root d := by
  have hiff := @at_hang_iff P E k next mem n root used l t _ d0 e q c h hat hold hnew hq hc
  have htq : t ≠ q := fun heq => hq (heq ▸ h.used hat)
  split
  case isTrue hagr =>
    have hent : hang mem q c t (d0 (l + 1)) e q (d l) = c (d l) := by
      rw [hang, put_apply, if_neg (fun hsl => htq hsl.1.symm), update_self]
    rw [(hiff.mpr (.inr ⟨rfl, rfl, hagr⟩)).found_eq hl (by rw [hent, hc]), hent]
  rename_i hagr
  obtain ⟨l', t', hat', hl', hnone⟩ := h.exists_at d
  have hent : hang mem q c t (d0 (l + 1)) e t' (d l') = mem t' (d l') := by
    rw [h.hang_apply hq hat', if_neg]
    exact fun hsl => hagr ((h.slot_iff hat hat').mp hsl).2.2
  rw [(hiff.mpr (.inl hat')).found_eq hl' (by rw [hent, hnone]), hent,
    hat'.found_eq hl' hnone]

end

end Link

end Tree

end Vex.Lib.Trie
