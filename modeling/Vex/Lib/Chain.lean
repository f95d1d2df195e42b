import Mathlib.Data.List.Basic
import Mathlib.Data.Nat.Basic

/-! Doubly linked lists of cells that stand for consecutive intervals. The cells are in memory
under pointers; a chain is the list of the pointers, with the links and the bounds they must have.
A chain is put together from its parts, so that surgery on the links is one lemma for the cell
that changes what is before it and one for the cell that changes what is after it. -/

namespace Vex.Lib

open List

variable {P C : Type} (prev next : C → Option P) (lo len : C → Nat)

/-- The cells from `start` to `stop`, after the cell `before` and before the cell `after`. -/
def Chain (cells : P → Option C) :
    (before : Option P) → (start : Nat) → List P → (stop : Nat) → (after : Option P) → Prop
  | _, start, [], stop, _ => start = stop
  | before, start, p :: l, stop, after => ∃ c, cells p = some c ∧ prev c = before ∧
      next c = l.head?.or after ∧ lo c = start ∧ 0 < len c ∧
      Chain cells (some p) (start + len c) l stop after

namespace Chain

variable {prev next : C → Option P} {lo len : C → Nat} {cells cells' : P → Option C}
  {before after : Option P} {start stop : Nat} {l xs ys : List P} {p q : P} {c c' : C}

theorem append_iff : Chain prev next lo len cells before start (xs ++ ys) stop after ↔
    ∃ mid, Chain prev next lo len cells before start xs mid (ys.head?.or after) ∧
      Chain prev next lo len cells (xs.getLast?.or before) mid ys stop after := by
  induction xs generalizing before start with
  | nil => simp [Chain]
  | cons x xs ih =>
    have hhd : (xs ++ ys).head?.or after = xs.head?.or (ys.head?.or after) := by
      cases xs <;> simp
    have hlast : (x :: xs).getLast?.or before = xs.getLast?.or (some x) := by
      cases xs <;> simp [getLast?_cons]
    simp only [cons_append, Chain, ih, hhd, hlast]
    constructor
    · rintro ⟨c, hc, hpv, hnx, hlo, hpos, mid, hxs, hys⟩
      exact ⟨mid, ⟨c, hc, hpv, hnx, hlo, hpos, hxs⟩, hys⟩
    · rintro ⟨mid, ⟨c, hc, hpv, hnx, hlo, hpos, hxs⟩, hys⟩
      exact ⟨c, hc, hpv, hnx, hlo, hpos, mid, hxs, hys⟩

section
variable (h : Chain prev next lo len cells before start l stop after)
include h

theorem imp
    (heq : ∀ p ∈ l, ∀ c, cells p = some c → ∃ c', cells' p = some c' ∧ prev c' = prev c ∧
      next c' = next c ∧ lo c' = lo c ∧ len c' = len c) :
    Chain prev next lo len cells' before start l stop after := by
  induction l generalizing before start with
  | nil => exact h
  | cons x l ih =>
    obtain ⟨c, hc, hpv, hnx, hlo, hpos, hrs⟩ := h
    obtain ⟨c', hc', hpv', hnx', hlo', hlen'⟩ := heq x (by simp) c hc
    refine ⟨c', hc', hpv'.trans hpv, hnx'.trans hnx, hlo'.trans hlo, hlen' ▸ hpos, ?_⟩
    rw [hlen']
    exact ih hrs fun p hp => heq p (by simp [hp])

theorem congr (heq : ∀ p ∈ l, cells' p = cells p) :
    Chain prev next lo len cells' before start l stop after :=
  h.imp fun p hp c hc => ⟨c, (heq p hp).trans hc, rfl, rfl, rfl, rfl⟩

theorem le : start ≤ stop := by
  induction l generalizing before start with
  | nil => exact Nat.le_of_eq h
  | cons x l ih =>
    obtain ⟨c, -, -, -, -, -, hrs⟩ := h
    exact Nat.le_trans (Nat.le_add_right ..) (ih hrs)

theorem length_le :
    l.length + start ≤ stop := by
  induction l generalizing before start with
  | nil => exact Nat.le_of_eq ((Nat.zero_add start).trans h)
  | cons x l ih =>
    obtain ⟨c, -, -, -, -, hpos, hrs⟩ := h
    have := ih hrs
    rw [length_cons]
    omega

theorem mem (hp : p ∈ l) :
    ∃ c, cells p = some c ∧ start ≤ lo c ∧ 0 < len c ∧ lo c + len c ≤ stop := by
  obtain ⟨xs, ys, rfl⟩ := append_of_mem hp
  obtain ⟨mid, hxs, c, hc, -, -, rfl, hpos, hys⟩ := append_iff.mp h
  exact ⟨c, hc, hxs.le, hpos, hys.le⟩

theorem disjoint (hp : p ∈ l) (hq : q ∈ l) (hne : p ≠ q) (hc : cells p = some c)
    (hc' : cells q = some c') :
    lo c + len c ≤ lo c' ∨ lo c' + len c' ≤ lo c := by
  obtain ⟨xs, ys, rfl⟩ := append_of_mem hp
  obtain ⟨mid, hxs, d, hd, -, -, rfl, -, hys⟩ := append_iff.mp h
  cases hc.symm.trans hd
  rcases mem_append.mp hq with hq | hq
  · obtain ⟨d', hd', -, -, hle⟩ := hxs.mem hq
    cases hc'.symm.trans hd'
    exact .inr hle
  · obtain ⟨d', hd', hle, -, -⟩ := hys.mem ((mem_cons.mp hq).resolve_left hne.symm)
    cases hc'.symm.trans hd'
    exact .inl hle

theorem nodup : l.Nodup := by
  induction l generalizing before start with
  | nil => exact .nil
  | cons x l ih =>
    obtain ⟨c, hc, -, -, hlo, hpos, hrs⟩ := h
    refine nodup_cons.mpr ⟨fun hx => ?_, ih hrs⟩
    obtain ⟨c', hc', hle, -, -⟩ := hrs.mem hx
    cases hc.symm.trans hc'
    omega

theorem rebase (hhd : ∀ p c, l.head? = some p → cells p = some c → ∃ c', cells' p = some c' ∧
      prev c' = before' ∧ next c' = next c ∧ lo c' = lo c ∧ len c' = len c)
    (htl : ∀ p ∈ l.tail, cells' p = cells p) :
    Chain prev next lo len cells' before' start l stop after := by
  cases l with
  | nil => exact h
  | cons x l =>
    obtain ⟨c, hc, -, hnx, hlo, hpos, hrs⟩ := h
    obtain ⟨c', hc', hpv', hnx', hlo', hlen'⟩ := hhd x c rfl hc
    refine ⟨c', hc', hpv', hnx'.trans hnx, hlo'.trans hlo, hlen' ▸ hpos, ?_⟩
    rw [hlen']
    exact hrs.congr htl

theorem reface (hlast : ∀ p c, l.getLast? = some p → cells p = some c → ∃ c', cells' p = some c' ∧
      next c' = after' ∧ prev c' = prev c ∧ lo c' = lo c ∧ len c' = len c)
    (hin : ∀ p ∈ l.dropLast, cells' p = cells p) :
    Chain prev next lo len cells' before start l stop after' := by
  rcases eq_nil_or_concat l with rfl | ⟨xs, x, rfl⟩
  · exact h
  rw [concat_eq_append] at *
  obtain ⟨mid, hxs, c, hc, hpv, -, hlo, hpos, hrs⟩ := append_iff.mp h
  obtain ⟨c', hc', hnx', hpv', hlo', hlen'⟩ := hlast x c (by simp) hc
  refine append_iff.mpr ⟨mid, hxs.congr fun p hp => hin p (by simpa using hp), c', hc',
    hpv'.trans hpv, by simpa using hnx', hlo'.trans hlo, hlen' ▸ hpos, ?_⟩
  rw [hlen']
  exact hrs

end

end Chain

/-- Following the links to the first cell with a property; none if a link leads out of memory or
the steps do not suffice. -/
def seek (next : C → Option P) (cells : P → Option C) (found : C → Bool) :
    (steps : Nat) → Option P → Option (Option P)
  | _, none => some none
  | 0, some _ => none
  | steps + 1, some p => (cells p).bind fun c =>
    if found c then some (some p) else seek next cells found steps (next c)

theorem Chain.seek_eq {prev next : C → Option P} {lo len : C → Nat} (found : C → Bool)
    (h : Chain prev next lo len cells before start l stop none) (hsteps : l.length ≤ steps) :
    seek next cells found steps l.head? = some (l.find? fun p => (cells p).any found) := by
  induction l generalizing before start steps with
  | nil => cases steps <;> rfl
  | cons x l ih =>
    obtain ⟨c, hc, -, hnx, -, -, hrs⟩ := h
    obtain ⟨steps, rfl⟩ := Nat.exists_eq_succ_of_ne_zero (Nat.ne_zero_of_lt hsteps)
    simp only [head?_cons, seek, hc, Option.bind_some, find?_cons, Option.any_some]
    cases hfnd : found c with
    | true => rfl
    | false =>
      rw [hnx, Option.or_none]
      exact ih hrs (Nat.le_of_succ_le_succ hsteps)

end Vex.Lib
