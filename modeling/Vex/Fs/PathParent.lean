import Vex.Fs.NewEntry
import Vex.Fs.PathSpec

/-! Resolving the parent of a path and then one more name is resolving the path: what
`path_resolve_parent_at` finds, as the step of `path_resolve_at` before the last name. -/

namespace Vex.Fs

open List

/-! ## The two parts of a path -/

theorem dirPart_append_lastName (path : Name) : dirPart path ++ lastName path = path :=
  rdropWhile_append_rtakeWhile ..

theorem slash_notMem_lastName (path : Name) : SLASH ∉ lastName path := fun h => by
  simpa using mem_rtakeWhile_imp h

theorem dirPart_cases (path : Name) :
    dirPart path = [] ∨ ∃ text, dirPart path = text ++ [SLASH] := by
  rcases eq_nil_or_concat (dirPart path) with h | ⟨text, b, h⟩
  · exact .inl h
  have hne : dirPart path ≠ [] := by simp [h]
  have hlast := rdropWhile_last_not (· != SLASH) path hne
  simp only [dirPart] at h
  simp only [h, bne_iff_ne] at hlast
  exact .inr ⟨text, by rw [dirPart, h]; simpa using hlast⟩

theorem lastName_eq_nil_iff (h : path ≠ []) : lastName path = [] ↔ path.getLast? = some SLASH := by
  rw [lastName, getLast?_eq_some_getLast h]
  simp [h]

/-! ## Text before and after a separator -/

theorem component_append_slash (path rest : Name) :
    component (path ++ SLASH :: rest) = component path := by
  induction path with
  | nil => simp [component]
  | cons c cs ih =>
    simp only [component] at ih
    simp [component, takeWhile_cons, ih]

theorem afterComponent_append_slash (path rest : Name) :
    afterComponent (path ++ SLASH :: rest) = afterComponent path ++ SLASH :: rest := by
  induction path with
  | nil => simp [afterComponent]
  | cons c cs ih =>
    simp only [afterComponent] at ih
    simp only [afterComponent, cons_append, dropWhile_cons, ih]
    split
    · rfl
    · rfl

theorem component_of_notMem (h : SLASH ∉ name) : component name = name :=
  takeWhile_eq_self_iff.mpr fun b hb => by
    simpa using fun heq : b = SLASH => h (heq ▸ hb)

theorem skipSeparators_slash (path : Name) :
    skipSeparators (SLASH :: path) = skipSeparators path :=
  dropWhile_cons_of_pos (by rfl)

namespace Tree

variable {t : Tree} {cred : Credentials}

variable {flags : BitVec 32} {p : Nat}

/-- The loop over a path that leads to `p` comes to `p` when it reads the path as the first part
of a longer one. -/
theorem resolveLoop_append (last : Except Errno Nat → Prop)
    (hend : last (t.resolveLoop cred follow flags p rest))
    (hfol : ∀ node link text, follow node link text 0 = .ok p →
      last (follow node link (text ++ SLASH :: rest) flags))
    (h : t.resolveLoop cred follow 0 current path = .ok p) :
    last (t.resolveLoop cred follow flags current (path ++ SLASH :: rest)) := by
  induction hn : path.length using Nat.strong_induction_on generalizing current path with
  | _ n ih =>
    cases hsk : skipSeparators path with
    | nil =>
      rw [resolveLoop_nil hsk, Except.ok.injEq] at h
      subst h
      have hsame : skipSeparators (path ++ SLASH :: rest) = skipSeparators rest := by
        rw [skipSeparators, dropWhile_append, ← skipSeparators, hsk]
        exact skipSeparators_slash rest
      rwa [resolveLoop_congr hsame]
    | cons c cs =>
      have hskip' : skipSeparators (path ++ SLASH :: rest) = c :: (cs ++ SLASH :: rest) := by
        rw [skipSeparators, dropWhile_append, ← skipSeparators, hsk]
        rfl
      have hrs : ∀ node,
          t.resolveLoop cred follow 0 node (afterComponent (c :: cs)) = .ok p →
          last (t.resolveLoop cred follow flags node
            (afterComponent (c :: cs) ++ SLASH :: rest)) := fun node hnd =>
        ih _ (hn ▸ afterComponent_length_lt hsk) hnd rfl
      rw [resolveLoop_cons hsk] at h
      rw [resolveLoop_cons hskip', ← cons_append, component_append_slash,
        afterComponent_append_slash]
      obtain ⟨⟨⟩, hsea, h⟩ := bind_eq_ok.mp h
      rw [hsea, ok_bind]
      by_cases hdot : component (c :: cs) = DOT
      · rw [if_pos hdot] at h ⊢
        exact hrs current h
      rw [if_neg hdot] at h ⊢
      by_cases hdd : component (c :: cs) = DOTDOT
      · rw [if_pos hdd] at h ⊢
        exact hrs _ h
      rw [if_neg hdd] at h ⊢
      obtain ⟨next, hlku, h⟩ := bind_eq_ok.mp h
      rw [hlku, ok_bind]
      -- more path follows, so a link is followed here as it was at the end of the path
      by_cases hlk : t.type next = .symLink
      · rw [if_pos ⟨hlk, .inr (by decide)⟩] at h
        rw [if_pos ⟨hlk, .inl (by simp)⟩]
        exact hfol _ _ _ h
      · rw [if_neg (fun hl => hlk hl.1)] at h ⊢
        exact hrs next h

variable {links : Nat}

theorem resolveInternal_slash :
    t.resolveInternal cred links base (SLASH :: path) flags =
      t.resolveInternal cred links base path flags :=
  resolveInternal_congr (skipSeparators_slash path)

/-- Where the first part of a path leads, the rest starts, with as many links left or fewer. -/
theorem resolveInternal_append (h : t.resolveInternal cred links base path 0 = .ok p)
    (rest : Name) (flags : BitVec 32) :
    ∃ left, t.resolveInternal cred links base (path ++ SLASH :: rest) flags =
      t.resolveInternal cred left p rest flags := by
  induction links generalizing base path p with
  | zero =>
    refine resolveLoop_append
      (fun r => ∃ left, r = t.resolveInternal cred left p rest flags) ⟨0, rfl⟩ ?_ h
    intro _ _ _ hlk
    cases hlk
  | succ links ih =>
    refine resolveLoop_append
      (fun r => ∃ left, r = t.resolveInternal cred left p rest flags)
      ⟨links + 1, rfl⟩ ?_ h
    intro node link text hlk
    rw [followSymlink_eq _ fun _ _ _ => resolveInternal_slash] at hlk ⊢
    obtain ⟨target, htx, hlk⟩ := bind_eq_ok.mp hlk
    obtain ⟨base', hbs, hlk⟩ := bind_eq_ok.mp hlk
    obtain ⟨resolved, hresolved, hend⟩ := bind_eq_ok.mp hlk
    have hmr : text ++ SLASH :: rest ≠ [] := by simp
    rw [ite_self] at hresolved
    rw [htx, ok_bind, hbs, ok_bind, if_pos hmr, hresolved, ok_bind, if_pos hmr]
    split at hend
    case isTrue => exact ih hend
    case isFalse hnil =>
      obtain rfl := not_not.mp hnil
      cases hend
      exact ⟨links, resolveInternal_slash⟩

/-- Where a path starts. -/
def startBase (t : Tree) (baseDir : Option Nat) (path : Name) : Except Errno Nat :=
  if path.head? = some SLASH then t.rootBase
  else match baseDir with
    | some base => .ok base
    | none => t.rootBase

variable {baseDir : Option Nat}

theorem pathResolveAt_eq (h : path ≠ []) :
    t.pathResolveAt cred baseDir path flags =
      t.startBase baseDir path >>= fun base =>
        t.resolveInternal cred (MAX_SYMLINK_DEPTH + 1) base path flags := by
  obtain ⟨c, cs, rfl⟩ := exists_cons_of_ne_nil h
  have hsk : ∀ root, t.resolveInternal cred (MAX_SYMLINK_DEPTH + 1) root
      (skipSeparators (c :: cs)) flags =
        t.resolveInternal cred (MAX_SYMLINK_DEPTH + 1) root (c :: cs) flags :=
    fun root => resolveInternal_congr (skipSeparators_skipSeparators _)
  simp only [pathResolveAt, startBase, rootBase, head?_cons, Option.some.injEq, hsk]
  by_cases hc : c = SLASH
  · simp only [hc, decide_true]
    cases t.vfsGetRoot with
    | none => rfl
    | some root => rfl
  simp only [hc]
  cases baseDir with
  | some base => rfl
  | none =>
    cases t.vfsGetRoot with
    | none => rfl
    | some root => rfl

theorem resolveInternal_dot (h : t.resolveInternal cred links base DOT flags = .ok p) :
    p = base := by
  have hlp : ∀ follow, t.resolveLoop cred follow flags base DOT = .ok p → p = base := by
    intro follow h
    rw [resolveLoop_cons (by rfl : skipSeparators DOT = 46 :: [])] at h
    obtain ⟨⟨⟩, -, h⟩ := bind_eq_ok.mp h
    rw [if_pos (by rfl), resolveLoop_nil (by rfl)] at h
    exact (Except.ok.inj h).symm
  cases links with
  | zero => exact hlp _ h
  | succ links => exact hlp _ h

/-- **The parent is one name short of the path**: from what `path_resolve_parent_at` finds, the
last name and anything after it resolve as they do at the end of the whole path. -/
theorem pathResolveAt_of_parent
    (h : t.pathResolveParentAt cred baseDir path page = .ok (p, name)) (rest : Name)
    (flags : BitVec 32) :
    ∃ links, t.pathResolveAt cred baseDir (path ++ rest) flags =
      t.resolveInternal cred links p (lastName path ++ rest) flags := by
  unfold pathResolveParentAt at h
  rw [guard_eq_ok, bind_eq_ok] at h
  obtain ⟨hne, parent, hpar, h⟩ := h
  unfold resolveDirPart at hpar
  obtain ⟨-, h⟩ := guard_eq_ok.mp h
  obtain ⟨rfl, -⟩ := Prod.mk.inj (Except.ok.inj h)
  have happ := dirPart_append_lastName path
  rw [pathResolveAt_eq (by simp [hne])]
  rcases dirPart_cases path with hdir | ⟨text, hdir⟩
  · rw [if_pos hdir, pathResolveAt_eq (by simp), bind_eq_ok] at hpar
    obtain ⟨base, hbs, hdot⟩ := hpar
    obtain rfl := resolveInternal_dot hdot
    rw [hdir, nil_append] at happ
    have hhd : (path ++ rest).head? ≠ some SLASH := by
      obtain ⟨c, cs, rfl⟩ := exists_cons_of_ne_nil hne
      intro hc
      obtain rfl : c = SLASH := by simpa using hc
      exact slash_notMem_lastName _ (happ ▸ mem_cons_self)
    have hsta : t.startBase baseDir (path ++ rest) = .ok parent := by
      unfold startBase at hbs ⊢
      rw [if_neg hhd]
      rwa [if_neg (by decide)] at hbs
    rw [hsta, happ]
    exact ⟨_, rfl⟩
  · have hpt : path ++ rest = text ++ SLASH :: (lastName path ++ rest) := by
      conv_lhs => rw [← happ, hdir]
      simp
    rw [if_neg (by simp [hdir])] at hpar
    cases htx : text with
    | nil =>
      rw [htx, nil_append] at hdir hpt
      rw [if_pos hdir, pathResolveAt_eq (by simp), bind_eq_ok] at hpar
      obtain ⟨base, hbs, hrt⟩ := hpar
      have hlp : t.resolveInternal cred (MAX_SYMLINK_DEPTH + 1) base [SLASH] 0 =
          .ok base := resolveLoop_nil (by rfl)
      obtain rfl := Except.ok.inj (hlp.symm.trans hrt)
      have hsta : t.startBase baseDir (path ++ rest) = .ok base := by
        simpa [startBase, hpt] using hbs
      rw [hsta, hpt]
      exact ⟨_, resolveInternal_slash⟩
    | cons c cs =>
      have hne' : text ≠ [] := by simp [htx]
      rw [if_neg (by simp [hdir, htx]), guard_eq_ok, guard_eq_ok] at hpar
      obtain ⟨-, -, hpar⟩ := hpar
      rw [hdir, dropLast_concat, pathResolveAt_eq hne', bind_eq_ok] at hpar
      obtain ⟨base, hbs, hrsv⟩ := hpar
      have hsta : t.startBase baseDir (path ++ rest) = .ok base := by
        rw [hpt]
        simpa [startBase, htx] using hbs
      rw [hsta, hpt]
      exact resolveInternal_append hrsv _ flags

theorem pathResolveParentAt_name
    (h : t.pathResolveParentAt cred baseDir path page = .ok (p, name)) :
    path ≠ [] ∧ t.type p = .directory ∧ name = lastName path := by
  unfold pathResolveParentAt at h
  rw [guard_eq_ok, bind_eq_ok] at h
  obtain ⟨hne, parent, -, h⟩ := h
  obtain ⟨hdir, ⟨⟩⟩ := guard_eq_ok.mp h
  exact ⟨hne, not_not.mp hdir, rfl⟩

/-! ## One more name -/

theorem skipSeparators_name (hne : name ≠ []) (hsl : SLASH ∉ name)
    (hrs : rest = [] ∨ ∃ text, rest = SLASH :: text) :
    ∃ c cs, skipSeparators (name ++ rest) = c :: cs ∧ component (c :: cs) = name ∧
      afterComponent (c :: cs) = rest := by
  obtain ⟨c, cs, rfl⟩ := exists_cons_of_ne_nil hne
  have hc : c ≠ SLASH := fun h => hsl (h ▸ mem_cons_self)
  refine ⟨c, cs ++ rest, dropWhile_cons_of_neg (by simpa using hc), ?_, ?_⟩
  · rw [← cons_append]
    rcases hrs with rfl | ⟨text, rfl⟩
    · rw [append_nil, component_of_notMem hsl]
    · rw [component_append_slash, component_of_notMem hsl]
  · have hnm : afterComponent (c :: cs) = [] :=
      dropWhile_eq_nil_iff.mpr fun b hb => by
        simpa using fun heq : b = SLASH => hsl (heq ▸ hb)
    rw [← cons_append]
    rcases hrs with rfl | ⟨text, rfl⟩
    · rw [append_nil, hnm]
    · rw [afterComponent_append_slash, hnm, nil_append]

theorem resolveInternal_eq_loop (t : Tree) (cred : Credentials) (links p : Nat) (path : Name)
    (flags : BitVec 32) :
    ∃ follow, t.resolveInternal cred links p path flags =
      t.resolveLoop cred follow flags p path := by
  cases links with
  | zero => exact ⟨_, rfl⟩
  | succ links => exact ⟨_, rfl⟩

theorem vnodeLookup_of_resolve (hne : name ≠ []) (hsl : SLASH ∉ name)
    (hrs : rest = [] ∨ ∃ text, rest = SLASH :: text) (hdots : isDots name = false)
    (h : t.resolveInternal cred links p (name ++ rest) flags = .ok u) :
    name.length ≤ NAME_MAX ∧ ∃ child, t.vnodeLookup p name = .ok child := by
  obtain ⟨follow, hlp⟩ := resolveInternal_eq_loop t cred links p (name ++ rest) flags
  obtain ⟨c, cs, hsk, hcomp, -⟩ := skipSeparators_name hne hsl hrs
  obtain ⟨hdot, hdd⟩ : name ≠ DOT ∧ name ≠ DOTDOT := by simpa [isDots] using hdots
  rw [hlp, resolveLoop_cons hsk, hcomp] at h
  obtain ⟨⟨⟩, hsea, h⟩ := bind_eq_ok.mp h
  rw [if_neg hdot, if_neg hdd] at h
  obtain ⟨child, hlku, -⟩ := bind_eq_ok.mp h
  exact ⟨not_lt.mp (guard_eq_ok.mp hsea).1, child, hlku⟩

theorem statAccess_error (h : statAccess st cred mask = .error e) : e = .EACCES := by
  have hguard : ∀ {p : Prop} [Decidable p],
      (if p then .error .EACCES else .ok ()) = (.error e : Except Errno Unit) → e = .EACCES := by
    intro p _ hp
    split at hp
    · exact (Except.error.inj hp).symm
    · cases hp
  unfold statAccess at h
  split at h
  · exact hguard h
  · exact hguard h

/-- In a directory one has some access to, a name the kernel finds missing is neither empty nor
one of the dots, which lead somewhere, nor too long, which is another error. -/
theorem name_of_resolve_missing (hsl : SLASH ∉ name) (hdir : t.type p = .directory)
    (hacc : t.vnodeAccess cred p mask = .ok ())
    (h : t.resolveInternal cred links p name flags = .error .ENOENT) :
    name ≠ [] ∧ isDots name = false ∧ name.length ≤ NAME_MAX := by
  obtain ⟨follow, hlp⟩ := resolveInternal_eq_loop t cred links p name flags
  rw [hlp] at h
  have hne : name ≠ [] := by
    rintro rfl
    rw [resolveLoop_nil (by rfl)] at h
    cases h
  obtain ⟨c, cs, hsk, hcomp, haft⟩ := skipSeparators_name hne hsl (.inl rfl)
  rw [append_nil] at hsk
  rw [resolveLoop_cons hsk, hcomp, haft] at h
  obtain ⟨st, hst, -⟩ := bind_eq_ok.mp hacc
  have hlen : ¬NAME_MAX < name.length := by
    intro hlg
    simp only [searchable, if_pos hlg] at h
    cases h
  have hsea : t.searchable cred p name = .ok () := by
    simp only [searchable, if_neg hlen, hdir, ne_eq] at h ⊢
    cases hx : t.vnodeAccess cred p X_OK with
    | ok => rfl
    | error e =>
      simp only [vnodeAccess, hst, bind, Except.bind] at hx
      rw [vnodeAccess, hst] at h
      simp only [bind, Except.bind, hx] at h
      rw [Except.error.inj h] at hx
      exact absurd (statAccess_error hx) (by decide)
  simp only [hsea, ok_bind] at h
  refine ⟨hne, ?_, not_lt.mp hlen⟩
  rw [← Bool.not_eq_true]
  intro hdots
  rcases (by simpa [isDots] using hdots : name = DOT ∨ name = DOTDOT) with rfl | rfl
  · rw [resolveLoop_nil (by rfl)] at h
    cases h
  · rw [if_neg (by decide), resolveLoop_nil (by rfl)] at h
    cases h

end Tree

end Vex.Fs
