import Vex.Mm.PmapEntry

/-! Walks over page tables. The tables of a page map are a tree in memory, and what the map makes
of an address is read off the entry its walk ends at. A walk that allocates hangs empty tables into
the tree and a split hangs in a table of smaller entries: neither changes what is mapped. -/

namespace Vex.Mm.PageTables

open Function

open Lib.Trie

/-- The table an entry of a level leads to. -/
def nextTable (level : Nat) (entry : Pmentry) : Option (BitVec 64) :=
  if pmentryValid entry && !pmentryLeaf entry level then some (pmentryTableAddress entry) else none

theorem nextTable_invalid (h : pmentryValid entry = false) (level : Nat) :
    nextTable level entry = none := by
  simp [nextTable, h]

theorem nextTable_one (entry : Pmentry) : nextTable 1 entry = none := by
  simp [nextTable, pmentryLeaf]

theorem nextTable_leaf (h : pmentryLeaf entry level = true) : nextTable level entry = none := by
  simp [nextTable, h]

theorem nextTable_table (h : IsFrame phys) (hlvl : 1 < level) :
    nextTable level (pmentryTable phys) = some phys := by
  simp [nextTable, pmentryValid_table, pmentryLeaf_table phys hlvl, pmentryTableAddress_table h]

@[simp] theorem pmentryValid_zero : pmentryValid 0 = false := by decide

namespace Pmap

/-- The entry the walk for an address ends at, and its level. -/
def leafOf (p : Pmap) (virt : BitVec 64) : Nat × Pmentry :=
  found nextTable p.tables p.numLevels p.root (pteIndex virt)

/-- What the map makes of an address. -/
def translate (p : Pmap) (virt : BitVec 64) : Option (BitVec 64 × Vprot) :=
  entryValue virt (p.leafOf virt)

/-- The walk for an address comes by a table at a level. -/
abbrev WalkAt (p : Pmap) (virt : BitVec 64) : Nat → BitVec 64 → Prop :=
  At nextTable p.tables p.numLevels p.root (pteIndex virt)

/-- The tables are a tree of as many levels as the machine has, in pages that are in use. -/
structure WellFormed (p : Pmap) : Prop where
  levels : p.numLevels = 4 ∨ p.numLevels = 5
  tree : Tree nextTable p.tables p.numLevels p.root fun t => p.used t = true

/-- The tables may have changed, what is mapped has not. -/
structure SameMap (p p' : Pmap) : Prop where
  wellFormed : p'.WellFormed
  numLevels : p'.numLevels = p.numLevels
  translate : ∀ v, p'.translate v = p.translate v

variable {p p' p'' : Pmap} {virt : BitVec 64} {level : Nat} {table : BitVec 64}

theorem WellFormed.sameMap (h : p.WellFormed) : SameMap p p := ⟨h, rfl, fun _ => rfl⟩

theorem SameMap.trans (h : SameMap p p') (h' : SameMap p' p'') : SameMap p p'' :=
  ⟨h'.wellFormed, h'.numLevels.trans h.numLevels, fun v => (h'.translate v).trans (h.translate v)⟩

theorem WellFormed.isLevel (h : p.WellFormed) (hat : p.WalkAt virt level table) (hlvl : 0 < level)
    : IsLevel level :=
  ⟨hlvl, hat.le.trans (by have := h.levels; omega)⟩

theorem translate_eq (hat : p.WalkAt virt level table) (hlvl : 0 < level)
    (hnone : nextTable level (p.tables table (pteIndex virt level)) = none) :
    p.translate virt = entryValue virt (level, p.tables table (pteIndex virt level)) := by
  rw [translate, leafOf, hat.found_eq hlvl hnone]

/-! ## Writes -/

theorem pslabAllocPhys_spec (p : Pmap) :
    (∃ frames, pslabAllocPhys p = (0, { p with frames := frames })) ∨
      ∃ phys frames, pslabAllocPhys p =
          (phys, { p with used := update p.used phys true, frames := frames }) ∧
        IsFrame phys ∧ p.used phys = false := by
  unfold pslabAllocPhys
  cases p.frames with
  | nil => exact .inl ⟨p.frames, rfl⟩
  | cons phys frames =>
    simp only
    split
    case isTrue hfree => exact .inr ⟨phys, frames, rfl, hfree⟩
    case isFalse => exact .inl ⟨frames, rfl⟩

theorem WellFormed.of_frames (h : p.WellFormed) (frames : List (BitVec 64)) :
    SameMap p { p with frames := frames } :=
  ⟨⟨h.levels, h.tree⟩, rfl, fun _ => rfl⟩

/-- Writing an entry at which the walk of an address ends: the addresses of its block get the
new one. -/
theorem WellFormed.write (h : p.WellFormed) (hat : p.WalkAt virt level table) (hlvl : 0 < level)
    (hold : nextTable level (p.tables table (pteIndex virt level)) = none)
    (hnew : nextTable level value = none) :
    (p.write ⟨table, pteIndex virt level⟩ value).WellFormed ∧
      (∀ v, Agree p.numLevels level (pteIndex v) (pteIndex virt) →
        (p.write ⟨table, pteIndex virt level⟩ value).leafOf v = (level, value)) ∧
      ∀ v, ¬Agree p.numLevels level (pteIndex v) (pteIndex virt) →
        (p.write ⟨table, pteIndex virt level⟩ value).leafOf v = p.leafOf v := by
  classical
  have hfnd := fun v => h.tree.found_set hat hlvl hold hnew (pteIndex v)
  refine ⟨⟨h.levels, h.tree.set hat hold hnew⟩, fun v hv => ?_, fun v hv => ?_⟩
  · exact (hfnd v).trans (if_pos hv)
  · exact (hfnd v).trans (if_neg hv)

theorem WellFormed.hang (h : p.WellFormed) (hat : p.WalkAt virt (level + 1) table)
    (hlvl : 0 < level)
    (hold : nextTable (level + 1) (p.tables table (pteIndex virt (level + 1))) = none)
    (hfrm : IsFrame phys) (hfree : p.used phys = false)
    (hens : ∀ i, nextTable level (entries i) = none) {frames : List (BitVec 64)}
    (hp' : p' = (fill { p with used := update p.used phys true, frames := frames } phys
      entries).write ⟨table, pteIndex virt (level + 1)⟩ (pmentryTable phys)) :
    p'.WellFormed ∧ p'.WalkAt virt level phys ∧ p'.tables phys = entries ∧
      (∀ v, Agree p.numLevels (level + 1) (pteIndex v) (pteIndex virt) →
        p.leafOf v = (level + 1, p.tables table (pteIndex virt (level + 1))) ∧
        p'.leafOf v = (level, entries (pteIndex v level))) ∧
      ∀ v, ¬Agree p.numLevels (level + 1) (pteIndex v) (pteIndex virt) →
        p'.leafOf v = p.leafOf v := by
  classical
  subst hp'
  have hnew := nextTable_table hfrm (Nat.lt_add_of_pos_left hlvl : 1 < level + 1)
  have hunu : ¬p.used phys = true := by rw [hfree]; decide
  have hfnd := fun v => h.tree.found_link hat hlvl hold hnew hunu hens (pteIndex v)
  have hne : table ≠ phys := fun heq => hunu (heq ▸ h.tree.used hat)
  refine ⟨⟨h.levels, ?_⟩, ?_, ?_, fun v hv => ⟨?_, ?_⟩, fun v hv => ?_⟩
  · have hlk := h.tree.link hat hold hnew hunu hens
    refine ⟨hlk.unique, fun hs => ?_, hlk.last, hlk.pos⟩
    rcases hlk.used hs with hus | rfl
    · exact (update_apply ..).trans (by split <;> simp [hus])
    · exact update_self ..
  · exact (h.tree.at_hang_iff hat hold hnew hunu hens).mpr
      (.inr ⟨rfl, rfl, fun _ _ _ => rfl⟩)
  · exact (update_of_ne hne.symm ..).trans (update_self ..)
  · have hhere : p.WalkAt v (level + 1) table := hat.congr (hv.symm.mono (Nat.le_succ _))
    have hdig : pteIndex v (level + 1) = pteIndex virt (level + 1) := hv _ le_rfl hat.le
    rw [leafOf, hhere.found_eq (Nat.succ_pos _) (by rw [hdig, hold]), hdig]
  · exact (hfnd v).trans (if_pos hv)
  · exact (hfnd v).trans (if_neg hv)

/-! ## Walks -/

/-- The end of a walk down to a level: the entry of that level, or a larger leaf; or nothing,
above the level, where the entry is not valid. -/
structure WalkEnd (p : Pmap) (virt : BitVec 64) (leafLevel : Nat) (ref : Option EntryRef)
    (level : Nat) (table : BitVec 64) : Prop where
  at_table : p.WalkAt virt level table
  le : leafLevel ≤ level
  cases : ref = some ⟨table, pteIndex virt level⟩ ∧ (level = leafLevel ∨
      pmentryValid (p.tables table (pteIndex virt level)) = true ∧
        pmentryLeaf (p.tables table (pteIndex virt level)) level = true) ∨
    ref = none ∧ pmentryValid (p.tables table (pteIndex virt level)) = false

/-- An entry that is not valid is of the level that was asked for. -/
theorem WalkEnd.level_eq (h : WalkEnd p virt leafLevel (some ref) level table)
    (hinv : ¬pmentryValid (p.entry ref)) :
    level = leafLevel ∧ pmentryValid (p.tables table (pteIndex virt level)) = false := by
  rcases h.cases with ⟨⟨⟩, hlvl | hval⟩ | ⟨⟨⟩, -⟩
  · exact ⟨hlvl, by simpa [entry] using hinv⟩
  · exact absurd hval.1 hinv

theorem pmentryWalkFrom_spec (hlf : 0 < leafLevel) (allocate : Bool) (h : p.WellFormed)
    (hat : p.WalkAt virt level table) (hle : leafLevel ≤ level) :
    ∃ ref l t p', pmentryWalkFrom virt leafLevel allocate level table p = ((ref, l), p') ∧
      SameMap p p' ∧ (allocate = false → p' = p) ∧ WalkEnd p' virt leafLevel ref l t := by
  induction level generalizing table p with
  | zero => exact absurd (hlf.trans_le hle) (Nat.lt_irrefl 0)
  | succ level ih =>
    rw [pmentryWalkFrom]
    split
    case isFalse hlast =>
      exact ⟨_, _, table, p, rfl, h.sameMap, fun _ => rfl, hat, hle,
        .inl ⟨rfl, .inl (by omega)⟩⟩
    rename_i hmr
    split
    case isTrue hsp =>
      exact ⟨_, _, table, p, rfl, h.sameMap, fun _ => rfl, hat, hle,
        .inl ⟨rfl, .inr (by simpa [entry] using hsp)⟩⟩
    rename_i hgo
    unfold pmentryGet
    cases hval : pmentryValid (p.tables table (pteIndex virt (level + 1))) with
    | true =>
      have hnx : nextTable (level + 1) (p.tables table (pteIndex virt (level + 1))) =
          some (pmentryTableAddress (p.tables table (pteIndex virt (level + 1)))) := by
        have hnoleaf : pmentryLeaf (p.tables table (pteIndex virt (level + 1))) (level + 1) =
            false := by simpa [entry, hval] using hgo
        simp [nextTable, hval, hnoleaf]
      rw [if_pos (show pmentryValid (p.entry ⟨table, pteIndex virt (level + 1)⟩) = true
        from hval)]
      exact ih h (.down hat hnx) (by omega)
    | false =>
      have hold := nextTable_invalid hval (level + 1)
      rw [if_neg (show ¬pmentryValid (p.entry _) = true by simp [entry, hval])]
      cases allocate with
      | false =>
        exact ⟨_, _, table, p, rfl, h.sameMap, fun _ => rfl, hat, hle, .inr ⟨rfl, hval⟩⟩
      | true =>
        rcases pslabAllocPhys_spec p with
          ⟨frames, hal⟩ | ⟨phys, frames, hal, hfrm, hfree⟩
        · rw [hal]
          exact ⟨_, _, table, _, rfl, h.of_frames frames, nofun, hat, hle,
            .inr ⟨rfl, hval⟩⟩
        rw [hal]
        simp only [if_true, ne_eq, hfrm.1]
        -- an empty table maps nothing, as before
        obtain ⟨hwf, hat', -, hin, hout⟩ := h.hang hat (by omega) hold hfrm hfree
          (fun _ => nextTable_invalid pmentryValid_zero level) rfl
        have hsame : SameMap p _ := ⟨hwf, rfl, fun v => by
          by_cases hv : Agree p.numLevels (level + 1) (pteIndex v) (pteIndex virt)
          · rw [translate, translate, (hin v hv).1, (hin v hv).2,
              entryValue_invalid pmentryValid_zero, entryValue_invalid hval]
          · rw [translate, translate, hout v hv]⟩
        obtain ⟨ref, l, t, p', hwk, hsm', -, hend⟩ := ih hwf hat' (by omega)
        exact ⟨ref, l, t, p', hwk, hsame.trans hsm', nofun, hend⟩

theorem pmentryWalk_spec (h : p.WellFormed) (virt : BitVec 64) (hlf : 0 < leafLevel)
    (hle : leafLevel ≤ p.numLevels) (allocate : Bool) :
    ∃ ref l t p', pmentryWalk p virt leafLevel allocate = ((ref, l), p') ∧ SameMap p p' ∧
      (allocate = false → p' = p) ∧ WalkEnd p' virt leafLevel ref l t :=
  pmentryWalkFrom_spec hlf allocate h .root hle

theorem pmentryWalk_page (h : p.WellFormed) (virt : BitVec 64) :
    ∃ ref l t, pmentryWalk p virt 1 false = ((ref, l), p) ∧ p.WalkAt virt l t ∧ IsLevel l ∧
      nextTable l (p.tables t (pteIndex virt l)) = none ∧
      p.leafOf virt = (l, p.tables t (pteIndex virt l)) ∧
      (ref = some ⟨t, pteIndex virt l⟩ ∨
        ref = none ∧ pmentryValid (p.tables t (pteIndex virt l)) = false) := by
  obtain ⟨ref, l, t, p', hwk, -, hp', hend⟩ :=
    pmentryWalk_spec h virt one_pos (by have := h.levels; omega) false
  obtain rfl := hp' rfl
  have hlvl := h.isLevel hend.at_table hend.le
  have hnone : nextTable l (p'.tables t (pteIndex virt l)) = none := by
    rcases hend.cases with ⟨-, rfl | ⟨-, hlf⟩⟩ | ⟨-, hval⟩
    · exact nextTable_one _
    · exact nextTable_leaf hlf
    · exact nextTable_invalid hval l
  refine ⟨ref, l, t, hwk, hend.at_table, hlvl, hnone, hend.at_table.found_eq hlvl.1 hnone, ?_⟩
  rcases hend.cases with ⟨href, -⟩ | hnone
  · exact .inl href
  · exact .inr hnone

/-- A split changes the tables only; where it changes the entry found, there is a valid one. -/
theorem splitLargeNolock_spec (h : p.WellFormed) (hat : p.WalkAt virt (level + 1) table)
    (hlvl : 0 < level)
    (hold : nextTable (level + 1) (p.tables table (pteIndex virt (level + 1))) = none)
    (hval : pmentryValid (p.tables table (pteIndex virt (level + 1))) = true) :
    ∃ r p', splitLargeNolock p ⟨table, pteIndex virt (level + 1)⟩ (level + 1) = (r, p') ∧
      SameMap p p' ∧ (r = .error .ENOMEM ∧ p'.tables = p.tables ∧ p'.root = p.root ∨
        r = .ok () ∧ ∃ t, p'.WalkAt virt level t ∧
          nextTable level (p'.tables t (pteIndex virt level)) = none) ∧
      ∀ v, p'.leafOf v = p.leafOf v ∨ pmentryValid (p'.leafOf v).2 = true := by
  have hlevel' := h.isLevel hat (Nat.succ_pos _)
  have hsub : IsLevel level := ⟨hlvl, (Nat.le_succ _).trans hlevel'.2⟩
  unfold splitLargeNolock
  rcases pslabAllocPhys_spec p with ⟨frames, hal⟩ | ⟨phys, frames, hal, hfrm, hfree⟩
  · rw [hal]
    exact ⟨_, _, rfl, h.of_frames frames, .inl ⟨rfl, rfl, rfl⟩, fun _ => .inl rfl⟩
  rw [hal]
  simp only [hfrm.1, Nat.add_sub_cancel]
  obtain ⟨hwf, hat', htab, hin, hout⟩ := h.hang hat hlvl hold hfrm hfree
    (fun i => nextTable_leaf (pmentryLeaf_setup _ _ hsub)) rfl
  refine ⟨_, _, rfl, ⟨hwf, rfl, fun v => ?_⟩, .inr ⟨rfl, phys, hat', ?_⟩, fun v => ?_⟩
  · by_cases hv : Agree p.numLevels (level + 1) (pteIndex v) (pteIndex virt)
    · rw [translate, translate, (hin v hv).1, (hin v hv).2]
      exact entryValue_split hsub hlevel' hval v
    · rw [translate, translate, hout v hv]
  · rw [htab]
    exact nextTable_leaf (pmentryLeaf_setup _ _ hsub)
  by_cases hv : Agree p.numLevels (level + 1) (pteIndex v) (pteIndex virt)
  · rw [(hin v hv).2]
    exact .inr (pmentryValid_setup _ _ hsub)
  · exact .inl (hout v hv)

end Pmap

end Vex.Mm.PageTables
