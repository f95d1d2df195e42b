import Mathlib.Data.Nat.Notation

/-! Enumeration by position. `next p` is the item found from position `p` on with the position after
it, or nothing at the end, or an error. An enumeration may be given up after any item and taken up
again at the position after it: the items of the parts in a row are those of one walk. -/

namespace Vex.Lib

variable {ε α σ : Type*}

/-- The items from one position up to another. -/
inductive Walk (next : Nat → Except ε (Option (α × Nat))) : Nat → List α → Nat → Prop
  | nil : Walk next p [] p
  | cons : next p = .ok (some (a, q)) → Walk next q as r → Walk next p (a :: as) r

/-- The items that a consumer takes one after the other, with its states before and after. -/
inductive Fed (emit : σ → α → Bool × σ) : σ → List α → σ → Prop
  | nil : Fed emit s [] s
  | cons : emit s a = (true, m) → Fed emit m as s' → Fed emit s (a :: as) s'

/-- Hands items to a consumer until it refuses one, and tells the position after the last one
taken. -/
def drain (next : Nat → Except ε (Option (α × Nat))) (emit : σ → α → Bool × σ) :
    (fuel offset : Nat) → σ × Nat → Except ε Unit × σ × Nat
  | 0, _, s => (.ok (), s)
  | fuel + 1, offset, (s, position) =>
    match next offset with
    | .error e => (.error e, s, position)
    | .ok none => (.ok (), s, position)
    | .ok (some (a, q)) =>
      match emit s a with
      | (false, s) => (.ok (), s, position)
      | (true, s) => drain next emit fuel q (s, q)

/-- Positions grow, and there is nothing from `bound` on. -/
structure Bounded (next : Nat → Except ε (Option (α × Nat))) (bound : Nat) : Prop where
  lt : ∀ {p a q}, next p = .ok (some (a, q)) → p < q
  done : ∀ {p}, bound ≤ p → next p = .ok none

/-- An enumeration that may fail where the other does not, and, unless `full`, end there. -/
def Follows (full : Prop) (next' next : Nat → Except ε (Option (α × Nat))) : Prop :=
  ∀ {p r}, next' p = .ok r → r.isSome ∨ full → next p = .ok r

variable {next next' : Nat → Except ε (Option (α × Nat))} {emit : σ → α → Bool × σ}

theorem Walk.append (h : Walk next p as q) (h' : Walk next q bs r) : Walk next p (as ++ bs) r := by
  induction h with
  | nil => exact h'
  | cons hnx _ ih => exact .cons hnx (ih h')

theorem Walk.follow (h : Walk next' p as q) (hf : Follows full next' next) : Walk next p as q := by
  induction h with
  | nil => exact .nil
  | cons hnx _ ih => exact .cons (hf hnx (.inl rfl)) ih

/-- What `drain` has done when it comes back without an error: it has handed over the items of a
walk that the consumer took, up to the end or to one that it refused. -/
theorem drain_ok (hb : Bounded next bound) (hfu : bound - offset ≤ fuel)
    (h : drain next emit fuel offset (s, position) = (.ok (), s', position')) :
    ∃ as q m, Walk next offset as q ∧ Fed emit s as m ∧
      position' = (if as = [] then position else q) ∧
      (next q = .ok none ∧ s' = m ∨
        ∃ a r, next q = .ok (some (a, r)) ∧ emit m a = (false, s')) := by
  induction fuel generalizing offset position s with
  | zero =>
    cases h
    exact ⟨[], offset, _, .nil, .nil, rfl, .inl ⟨hb.done (by omega), rfl⟩⟩
  | succ fuel ih =>
    rw [drain] at h
    split at h
    · cases h
    next hnx =>
      cases h
      exact ⟨[], offset, _, .nil, .nil, rfl, .inl ⟨hnx, rfl⟩⟩
    rename_i a q hnx
    split at h
    next hem =>
      cases h
      exact ⟨[], offset, s, .nil, .nil, rfl, .inr ⟨a, q, hnx, hem⟩⟩
    rename_i m hem
    have hlt := hb.lt hnx
    obtain ⟨as, r, m', hwk, hfed, hpos, hsp⟩ := ih (by omega) h
    refine ⟨a :: as, r, m', .cons hnx hwk, .cons hem hfed, ?_, hsp⟩
    rw [hpos]
    split
    next hnil =>
      subst hnil
      cases hwk
      rfl
    next => rfl

theorem drain_invariant {I : σ → Prop} (hem : ∀ s a, I s → I (emit s a).2) (fuel offset : Nat)
    (s : σ × Nat) (h : I s.1) :
    I (drain next emit fuel offset s).2.1 := by
  induction fuel generalizing offset s with
  | zero => exact h
  | succ fuel ih =>
    obtain ⟨s, position⟩ := s
    rw [drain]
    split
    · exact h
    · exact h
    rename_i a q _
    have hnx := hem s a h
    split
    next heq =>
      rw [heq] at hnx
      exact hnx
    next heq =>
      rw [heq] at hnx
      exact ih _ _ hnx

theorem drain_congr (hnx : ∀ p, b ≤ p → next' p = next p)
    (hlt : ∀ {p a q}, next p = .ok (some (a, q)) → p < q) (hb : b ≤ offset) (s : σ × Nat) :
    drain next' emit fuel offset s = drain next emit fuel offset s := by
  induction fuel generalizing offset s with
  | zero => rfl
  | succ fuel ih =>
    rw [drain, drain, hnx offset hb]
    cases hoff : next offset with
    | error e => rfl
    | ok r =>
      cases r with
      | none => rfl
      | some r =>
        obtain ⟨a, q⟩ := r
        have hq := hlt hoff
        simp only [ih (show b ≤ q by omega)]

theorem drain_all (hb : Bounded next bound) (hfu : bound - offset ≤ fuel)
    (hwk : Walk next offset as q) (hend : next q = .ok none) (collected : List α) (position : Nat)
    :
    drain next (fun s a => (true, s ++ [a])) fuel offset (collected, position) =
      (.ok (), collected ++ as, if as = [] then position else q) := by
  induction hwk generalizing fuel position collected with
  | @nil p =>
    cases fuel with
    | zero => simp [drain]
    | succ fuel => simp [drain, hend]
  | @cons p a q as r hnx hwk ih =>
    have hlt := hb.lt hnx
    cases fuel with
    | zero =>
      have hdone := hb.done (p := p) (by omega)
      cases hdone.symm.trans hnx
    | succ fuel =>
      rw [drain, hnx]
      have hrs := ih (show bound - q ≤ fuel by omega) hend (collected ++ [a]) q
      simp only [hrs, List.append_assoc, reduceCtorEq, if_false]
      cases hwk with
      | nil => simp
      | cons => simp

end Vex.Lib
