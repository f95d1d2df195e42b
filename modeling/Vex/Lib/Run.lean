import Mathlib.Logic.Relation

/-! Finite runs of a labelled step relation, and the two rules every safety result of this
development goes through: an invariant of the step holds after every run, and a function of the
state that follows an abstract step follows the abstract fold along every run. A run whose
steps all meet a condition is a run of the restricted relation `Under`. -/

namespace Vex.Lib

open Option

-- the numerals that name the threads of a run
instance (priority := 2000) neZeroOne : @NeZero Nat Zero.ofOfNat0 1 := ⟨by decide⟩

instance (priority := 2000) neZeroTwo : @NeZero Nat Zero.ofOfNat0 2 := ⟨by decide⟩

variable {σ α τ : Type*} {step : σ → α → σ → Prop}

/-- `Run step s as s'`: the labels `as` take `s` to `s'`, one step each. -/
inductive Run (step : σ → α → σ → Prop) : σ → List α → σ → Prop
  | nil : Run step s [] s
  | cons : step s a m → Run step m as s' → Run step s (a :: as) s'

/-- The steps that meet the condition `ok` on the state before and the label. -/
def Under (ok : σ → α → Prop) (step : σ → α → σ → Prop) (s : σ) (a : α) (s' : σ) : Prop :=
  ok s a ∧ step s a s'

/-- The relation of a partial step function that also returns an output. -/
def Fires {ι ο : Type*} (next : σ → ι → Option (ο × σ)) (s : σ) (a : ι × ο) (s' : σ) : Prop :=
  next s a.1 = some (a.2, s')

/-- The relation of a partial step function. -/
def Advances (next : σ → α → Option σ) (s : σ) (a : α) (s' : σ) : Prop := next s a = some s'

/-- The run of a step function on given inputs, if none of them is refused. -/
def trace {ι ο : Type*} (next : σ → ι → Option (ο × σ)) : σ → List ι → Option (List (ι × ο) × σ)
  | s, [] => some ([], s)
  | s, i :: is => (next s i).bind fun r =>
    (trace next r.2 is).map fun q => ((i, r.1) :: q.1, q.2)

theorem of_guard [Decidable p] (h : (if p then some a else none) = some b) : p ∧ b = a := by
  obtain ⟨hp, h⟩ := ite_none_right_eq_some.mp h
  exact ⟨hp, (some.inj h).symm⟩

namespace Run

/-- **Invariant rule.** What one step keeps, a run keeps. -/
theorem invariant {I : σ → Prop} (hst : ∀ {s a s'}, I s → step s a s' → I s')
    (h : Run step s as s') (h0 : I s) : I s' := by
  induction h with
  | nil => exact h0
  | cons hs _ ih => exact ih (hst h0 hs)

/-- **Until rule.** What every step keeps but for one at which `E` happens holds after a run, or `E`
happened along it. -/
theorem upTo {P : σ → Prop} {E : σ → α → Prop}
    (hst : ∀ {s a s'}, P s → step s a s' → P s' ∨ E s a) (h : Run step s as s') (h0 : P s) :
    P s' ∨ ∃ pre a post m, as = pre ++ a :: post ∧ Run step s pre m ∧ E m a := by
  induction h with
  | nil => exact .inl h0
  | cons hs _ ih =>
    rcases hst h0 hs with h1 | hevt
    · rcases ih h1 with hend | ⟨pre, a, post, m, rfl, hpre, hm⟩
      · exact .inl hend
      · exact .inr ⟨_, a, post, m, rfl, .cons hs hpre, hm⟩
    · exact .inr ⟨[], _, _, _, rfl, .nil, hevt⟩

/-- **Simulation rule.** If, under an invariant, the view of the state follows the abstract
step `f`, then it follows the fold of `f` along every run. -/
theorem view_foldl {I : σ → Prop} {view : σ → τ} (hI : ∀ {s a s'}, I s → step s a s' → I s')
    (hview : ∀ {s a s'}, I s → step s a s' → view s' = f (view s) a) (h : Run step s as s')
    (h0 : I s) : view s' = as.foldl f (view s) := by
  induction h with
  | nil => rfl
  | cons hs _ ih => rw [ih (hI h0 hs), hview h0 hs, List.foldl_cons]

/-- **History rule.** A relation between the state and what an abstract step makes of the labels
so far, kept by every step, holds after every run. -/
theorem history {I : τ → σ → Prop} (hst : ∀ {t s a s'}, I t s → step s a s' → I (f t a) s')
    (h : Run step s as s') (h0 : I t s) : I (as.foldl f t) s' := by
  induction h generalizing t with
  | nil => exact h0
  | cons hs _ ih => exact ih (hst h0 hs)

/-- **Refinement rule.** If every step from related states is matched by an abstract step with the
same label to related states, then every run is matched by an abstract run. -/
theorem simulates {R : σ → τ → Prop} (h : Run step s as s') (h0 : R s t)
    (hst : ∀ {s a s' t}, R s t → step s a s' → ∃ t', step' t a t' ∧ R s' t') :
    ∃ t', Run step' t as t' ∧ R s' t' := by
  induction h generalizing t with
  | nil => exact ⟨t, .nil, h0⟩
  | cons hs _ ih =>
    obtain ⟨t1, hs1, h1⟩ := hst h0 hs
    obtain ⟨t', hrun, h'⟩ := ih h1
    exact ⟨t', .cons hs1 hrun, h'⟩

/-- A run whose steps all meet a condition, as an invariant of this run shows, is a run of the
restricted relation. -/
theorem under_of_invariant {J : σ → Prop} (h : Run step s as s') (h0 : J s)
    (hJ : ∀ {s a s'}, a ∈ as → J s → step s a s' → J s') (hok : ∀ {s a}, a ∈ as → J s → ok s a) :
    Run (Under ok step) s as s' := by
  induction h with
  | nil => exact .nil
  | cons hs _ ih =>
    exact .cons ⟨hok (by simp) h0, hs⟩ (ih (hJ (by simp) h0 hs)
      (fun ha => hJ (by simp [ha])) fun ha => hok (by simp [ha]))

theorem under (h : Run step s as s') (hok : ∀ a ∈ as, ok a) :
    Run (Under (fun _ => ok) step) s as s' :=
  h.under_of_invariant (J := fun _ => True) trivial (fun _ _ _ => trivial) fun ha _ => hok _ ha

theorem of_trace (h : trace next s is = some (as, s')) :
    Run (Fires next) s as s' ∧ as.map Prod.fst = is := by
  induction is generalizing s as with
  | nil =>
    cases h
    exact ⟨.nil, rfl⟩
  | cons i is ih =>
    obtain ⟨⟨o, m⟩, hm, h⟩ := bind_eq_some_iff.mp h
    obtain ⟨⟨bs, t⟩, ht, ⟨⟩⟩ := map_eq_some_iff.mp h
    obtain ⟨hrun, hmap⟩ := ih ht
    exact ⟨.cons hm hrun, by simp [hmap]⟩

theorem of_foldlM (h : as.foldlM next s = some s') : Run (Advances next) s as s' := by
  induction as generalizing s with
  | nil => cases h; exact .nil
  | cons a as ih =>
    obtain ⟨m, hm, h⟩ := bind_eq_some_iff.mp h
    exact .cons hm (ih h)

theorem of_foldlM_under [∀ s a, Decidable (ok s a)]
    (h : as.foldlM (fun s a => if ok s a then next s a else none) s = some s') :
    Run (Under ok (Advances next)) s as s' := by
  induction as generalizing s with
  | nil => cases h; exact .nil
  | cons a as ih =>
    obtain ⟨m, hm, h⟩ := bind_eq_some_iff.mp h
    obtain ⟨hok, hm⟩ := ite_none_right_eq_some.mp hm
    exact .cons ⟨hok, hm⟩ (ih h)

section
variable {P Q R S T : σ → Prop}

/-- A run that is there, with what is shown of the end of every such run. -/
theorem exists_and (h : ∃ s, P s ∧ Q s) (hR : ∀ s, P s → Q s → R s) : ∃ s, P s ∧ Q s ∧ R s :=
  h.imp fun s h => ⟨h.1, h.2, hR s h.1 h.2⟩

theorem exists_and₂ (h : ∃ s, P s ∧ Q s ∧ R s) (hS : ∀ s, P s → Q s → R s → S s) :
    ∃ s, P s ∧ Q s ∧ R s ∧ S s :=
  h.imp fun s h => ⟨h.1, h.2.1, h.2.2, hS s h.1 h.2.1 h.2.2⟩

theorem exists_and₃ (h : ∃ s, P s ∧ Q s ∧ R s ∧ S s) (hT : ∀ s, P s → Q s → R s → S s → T s) :
    ∃ s, P s ∧ Q s ∧ R s ∧ S s ∧ T s :=
  h.imp fun s h => ⟨h.1, h.2.1, h.2.2.1, h.2.2.2, hT s h.1 h.2.1 h.2.2.1 h.2.2.2⟩

end

/-- A run found by evaluation, with what is true at its end. -/
theorem exists_of_any {o : Option σ} {P Q : σ → Prop} [DecidablePred Q]
    (hP : ∀ {s}, o = some s → P s) (h : o.any fun s => Q s) : ∃ s, P s ∧ Q s := by
  obtain ⟨s, hs, hq⟩ := (any_eq_true ..).mp h
  exact ⟨s, hP hs, of_decide_eq_true hq⟩

end Run

end Vex.Lib
