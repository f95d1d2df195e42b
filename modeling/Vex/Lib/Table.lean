import Mathlib.Data.List.Sort
import Mathlib.Order.Nat

/-! Finite tables with natural-number keys, kept in key order: what a radix tree is to code that
looks keys up in it, adds and removes them and walks them upwards from a start. A table carries
the proof of its order, so that a walk by `gather` meets every key once. -/

namespace Vex.Lib

open List

/-- Entries in strictly increasing key order. -/
structure Table (α : Type*) where
  entries : List (Nat × α)
  sorted : entries.Pairwise fun x y => x.1 < y.1

namespace Table

variable {α : Type*} {l : List (Nat × α)} {t : Table α} {a b : α} {k k' n start : Nat}

/-! ## Lists of entries -/

def getEntry : List (Nat × α) → Nat → Option α
  | [], _ => none
  | (k', a) :: l, k => if k' = k then some a else getEntry l k

def putEntry (k : Nat) (a : α) : List (Nat × α) → List (Nat × α)
  | [] => [(k, a)]
  | (k', b) :: l =>
    if k < k' then (k, a) :: (k', b) :: l
    else if k' = k then (k, a) :: l
    else (k', b) :: putEntry k a l

theorem getEntry_eq_none (h : ∀ x ∈ l, x.1 ≠ k) : getEntry l k = none := by
  induction l with
  | nil => rfl
  | cons x l ih =>
    rw [getEntry, if_neg (h x (by simp)), ih fun y hy => h y (by simp [hy])]

theorem getEntry_eq_none_of_lt (h : ∀ x ∈ l, k < x.1) : getEntry l k = none :=
  getEntry_eq_none fun x hx => (h x hx).ne'

theorem mem_of_getEntry (h : getEntry l k = some a) : (k, a) ∈ l := by
  induction l with
  | nil => cases h
  | cons x l ih =>
    rw [getEntry] at h
    split at h
    · next hk =>
      cases h
      subst hk
      exact mem_cons_self
    · exact mem_cons_of_mem _ (ih h)

theorem getEntry_of_mem (hl : l.Pairwise fun x y => x.1 < y.1) (h : (k, a) ∈ l) :
    getEntry l k = some a := by
  induction l with
  | nil => cases h
  | cons x l ih =>
    rcases mem_cons.mp h with rfl | h
    · rw [getEntry, if_pos rfl]
    · have hlt := rel_of_pairwise_cons hl h
      rw [getEntry, if_neg (by simpa using hlt.ne), ih hl.of_cons h]

theorem mem_putEntry (h : x ∈ putEntry k a l) : x = (k, a) ∨ x ∈ l := by
  induction l with
  | nil => simpa [putEntry] using h
  | cons y l ih =>
    rw [putEntry] at h
    split_ifs at h with h1 h2
    · simpa using h
    · exact (mem_cons.mp h).imp_right (mem_cons_of_mem _)
    rcases mem_cons.mp h with rfl | h
    · exact .inr mem_cons_self
    · exact (ih h).imp_right (mem_cons_of_mem _)

theorem sorted_putEntry (hl : l.Pairwise fun x y => x.1 < y.1) :
    (putEntry k a l).Pairwise fun x y => x.1 < y.1 := by
  induction l with
  | nil => simp [putEntry]
  | cons y l ih =>
    rw [putEntry]
    split_ifs with h1 h2
    · refine hl.cons fun x hx => ?_
      rcases mem_cons.mp hx with rfl | hx
      · exact h1
      · exact h1.trans (rel_of_pairwise_cons hl hx)
    · subst h2
      exact hl.of_cons.cons fun x hx => rel_of_pairwise_cons hl hx
    refine (ih hl.of_cons).cons fun x hx => ?_
    rcases mem_putEntry hx with rfl | hx
    · exact lt_of_le_of_ne (not_lt.mp h1) h2
    · exact rel_of_pairwise_cons hl hx

theorem getEntry_putEntry :
    getEntry (putEntry k a l) k' = if k = k' then some a else getEntry l k' := by
  induction l with
  | nil => simp [putEntry, getEntry]
  | cons y l ih =>
    rw [putEntry]
    split_ifs <;> simp_all [getEntry]

theorem countP_putEntry (p : α → Bool) (hl : l.Pairwise fun x y => x.1 < y.1) :
    (putEntry k a l).countP (fun x => p x.2) + ((getEntry l k).elim 0 fun b => (p b).toNat) =
      l.countP (fun x => p x.2) + (p a).toNat := by
  induction l with
  | nil => cases h : p a <;> simp [putEntry, getEntry, h]
  | cons y l ih =>
    have hlt : ∀ x ∈ l, y.1 < x.1 := fun x hx => rel_of_pairwise_cons hl hx
    rw [putEntry]
    split_ifs with h1 h2
    · rw [getEntry, if_neg (by omega), getEntry_eq_none_of_lt fun x hx => h1.trans (hlt x hx)]
      cases h : p a <;> simp [h]
    · rw [getEntry, if_pos h2]
      cases h : p a <;> cases h' : p y.2 <;> simp [h, h']
    · have := ih hl.of_cons
      rw [getEntry, if_neg h2]
      cases h' : p y.2 <;> simp [h'] <;> omega

/-! ## Tables -/

def empty : Table α := ⟨[], .nil⟩

def get (t : Table α) (k : Nat) : Option α := getEntry t.entries k

/-- Adds an entry, or replaces the one under its key. -/
def put (t : Table α) (k : Nat) (a : α) : Table α :=
  ⟨putEntry k a t.entries, sorted_putEntry t.sorted⟩

def erase (t : Table α) (k : Nat) : Table α :=
  ⟨t.entries.filter fun x => x.1 ≠ k, t.sorted.filter _⟩

/-- Changes the entry under a key, if there is one. -/
def modify (t : Table α) (k : Nat) (f : α → α) : Table α :=
  match t.get k with
  | some a => t.put k (f a)
  | none => t

def keys (t : Table α) : List Nat := t.entries.map Prod.fst

/-- The first `n` keys from `start` on, in order. -/
def gather (t : Table α) (start n : Nat) : List Nat := (t.keys.filter (start ≤ ·)).take n

/-- The number of entries with a property. -/
def count (t : Table α) (p : α → Bool) : Nat := t.entries.countP fun x => p x.2

@[simp] theorem get_empty : (empty : Table α).get k = none := rfl

variable {p : α → Bool}

@[simp] theorem count_empty : (empty : Table α).count p = 0 := rfl

theorem mem_entries_iff : (k, a) ∈ t.entries ↔ t.get k = some a :=
  ⟨getEntry_of_mem t.sorted, mem_of_getEntry⟩

theorem entries_eq (hl : l.Pairwise fun x y => x.1 < y.1) (h : ∀ k a, (k, a) ∈ l ↔ t.get k = some a)
    : t.entries = l := by
  exact t.sorted.eq_of_mem_iff hl fun x => mem_entries_iff.trans (h x.1 x.2).symm

theorem get_put : (t.put k a).get k' = if k = k' then some a else t.get k' := getEntry_putEntry

@[simp] theorem get_put_self : (t.put k a).get k = some a := by simp [get_put]

theorem get_put_ne (h : k ≠ k') : (t.put k a).get k' = t.get k' := by simp [get_put, h]

theorem get_erase : (t.erase k).get k' = if k = k' then none else t.get k' := by
  refine Option.ext fun a => ?_
  rw [← mem_entries_iff]
  split
  · next h => simp [erase, h]
  · next h => simp [erase, mem_entries_iff, Ne.symm h]

@[simp] theorem get_erase_self : (t.erase k).get k = none := by simp [get_erase]

theorem get_erase_ne (h : k ≠ k') : (t.erase k).get k' = t.get k' := by simp [get_erase, h]

variable {f : α → α}

theorem get_modify :
    (t.modify k f).get k' = if k = k' then (t.get k).map f else t.get k' := by
  cases h : t.get k with
  | some a => simp [modify, h, get_put]
  | none =>
    by_cases hk : k = k'
    · subst hk
      simp [modify, h]
    · simp [modify, h, hk]

@[simp] theorem get_modify_self : (t.modify k f).get k = (t.get k).map f := by
  simp [get_modify]

theorem get_modify_ne (h : k ≠ k') : (t.modify k f).get k' = t.get k' := by
  simp [get_modify, h]

theorem count_put (p : α → Bool) :
    (t.put k a).count p + ((t.get k).elim 0 fun b => (p b).toNat) = t.count p + (p a).toNat :=
  countP_putEntry p t.sorted

theorem count_put_of_get (h : t.get k = some b) :
    (t.put k a).count p + (p b).toNat = t.count p + (p a).toNat := by
  simpa [h] using t.count_put (k := k) p

theorem count_put_of_none (h : t.get k = none) :
    (t.put k a).count p = t.count p + (p a).toNat := by
  simpa [h] using t.count_put (k := k) p

theorem count_modify_of_get (h : t.get k = some b) :
    (t.modify k f).count p + (p b).toNat = t.count p + (p (f b)).toNat := by
  simpa [modify, h] using count_put_of_get h

theorem count_modify (h : ∀ b, p (f b) = p b) :
    (t.modify k f).count p = t.count p := by
  cases hget : t.get k with
  | some b =>
    have := t.count_modify_of_get (p := p) (f := f) hget
    rw [h b] at this
    omega
  | none => simp [modify, hget]

theorem count_erase (h : ∀ b, t.get k = some b → p b = false) :
    (t.erase k).count p = t.count p := by
  refine (countP_filter ..).trans (countP_congr fun x hx => ?_)
  by_cases hk : x.1 = k
  · have := h x.2 (mem_entries_iff.mp (hk ▸ hx))
    simp [this]
  · simp [hk]

theorem count_eq_zero : t.count p = 0 ↔ ∀ k a, t.get k = some a → p a = false := by
  simp [count, countP_eq_zero, Bool.not_eq_true, Prod.forall, mem_entries_iff]

/-! ## Walking upwards -/

theorem sorted_keys : t.keys.Pairwise (· < ·) := pairwise_map.mpr t.sorted

theorem mem_keys : k ∈ t.keys ↔ ∃ a, t.get k = some a := by
  simp [keys, ← mem_entries_iff]

theorem keys_putEntry (h : getEntry l k = some b) (hl : l.Pairwise fun x y => x.1 < y.1) :
    (putEntry k a l).map Prod.fst = l.map Prod.fst := by
  induction l with
  | nil => cases h
  | cons x l ih =>
    have hmem := mem_of_getEntry h
    rw [putEntry]
    split_ifs with h1 h2
    · rcases mem_cons.mp hmem with rfl | hmem
      · exact absurd h1 (lt_irrefl _)
      · exact absurd (rel_of_pairwise_cons hl hmem) (lt_asymm h1)
    · simp [h2]
    · rw [getEntry, if_neg h2] at h
      simp [ih h hl.of_cons]

@[simp] theorem keys_modify : (t.modify k f).keys = t.keys := by
  unfold modify
  split
  · next h => exact keys_putEntry h t.sorted
  · rfl

/-- The number of keys a walk has before it. -/
def above (t : Table α) (start : Nat) : Nat := t.keys.countP (start ≤ ·)

theorem gather_eq_nil (hn : 0 < n) :
    t.gather start n = [] ↔ ∀ k a, t.get k = some a → k < start := by
  simp [gather, take_eq_nil_iff, hn.ne', false_or, filter_eq_nil_iff, decide_eq_true_eq, not_le,
    mem_keys, forall_exists_index]

theorem mem_gather (h : k ∈ t.gather start n) : start ≤ k ∧ k ∈ t.keys := by
  obtain ⟨hmem, hle⟩ := mem_filter.mp (mem_of_mem_take h)
  exact ⟨of_decide_eq_true hle, hmem⟩

/-- A batch that ends in `last` has every key from the start up to `last`. -/
theorem mem_gather_of_le (h : (t.gather start n).getLast? = some last) (hkey : k ∈ t.keys)
    (hs : start ≤ k) (hk : k ≤ last) : k ∈ t.gather start n := by
  set f := t.keys.filter (start ≤ ·)
  have hmem : k ∈ f := mem_filter.mpr ⟨hkey, by simpa using hs⟩
  have hsrt : (f.take n ++ f.drop n).Pairwise (· < ·) := by
    rw [take_append_drop]
    exact t.sorted_keys.filter _
  rw [← take_append_drop n f] at hmem
  refine (mem_append.mp hmem).resolve_right fun hout => ?_
  -- a key left out of the batch lies above its last one
  have := (pairwise_append.mp hsrt).2.2 last (mem_of_getLast? h) k hout
  omega

theorem above_lt (h : (t.gather start n).getLast? = some last) :
    t.above (last + 1) < t.above start := by
  obtain ⟨hle, hkey⟩ := mem_gather (mem_of_getLast? h)
  have hsub : (t.keys.filter (last + 1 ≤ ·)).Sublist (t.keys.filter (start ≤ ·)) := by
    refine monotone_filter_right _ fun x hx => ?_
    simp only [decide_eq_true_eq] at hx ⊢
    omega
  simp only [above, countP_eq_length_filter]
  refine lt_of_not_ge fun hge => ?_
  have hin : last ∈ t.keys.filter (last + 1 ≤ ·) := by
    rw [hsub.eq_of_length_le hge]
    exact mem_filter.mpr ⟨hkey, by simpa using hle⟩
  have hlt := of_decide_eq_true (mem_filter.mp hin).2
  omega

theorem above_erase_le : (t.erase k).above start ≤ t.above start := by
  have hsub : (t.erase k).keys.Sublist t.keys := filter_sublist.map _
  exact hsub.countP_le

theorem above_erase_lt (hkey : k ∈ t.keys) (hle : start ≤ k) :
    (t.erase k).above start < t.above start := by
  have hsub : (t.erase k).keys.Sublist t.keys := filter_sublist.map _
  simp only [above, countP_eq_length_filter]
  refine lt_of_not_ge fun hge => ?_
  have hin : k ∈ (t.erase k).keys.filter (start ≤ ·) := by
    rw [(hsub.filter _).eq_of_length_le hge]
    exact mem_filter.mpr ⟨hkey, by simpa using hle⟩
  obtain ⟨a, ha⟩ := mem_keys.mp (mem_filter.mp hin).1
  simp at ha

theorem above_le : t.above start ≤ t.entries.length := countP_le_length.trans (length_map ..).le

end Table

end Vex.Lib
