import Mathlib.Data.List.Nodup
import Vex.Proc.Pgrp

/-! The invariant of process groups and sessions, and how the small operations keep it.

Inside a call a group may be in the table without members yet, a process off the list of its group,
and a reference in the hands of the call. The invariant has a parameter for each: `grp` is the group
of each process whose list it is on, `loose` a group that is in the table without members, and
`held` and `kept` are the references to groups and sessions that are not a member's and not a
group's. -/

namespace Vex.Proc.Pgrp

open Function List Heap

attribute [local simp] Heap.putGroup

structure Lists (h : Heap) (grp : Nat → Option Nat) (loose : Option Nat) : Prop where
  listed : ∀ b g, g ∈ h.table b ↔
    g ∈ h.groups ∧ b = pgidBucket (h.pgid g) ∧ (h.members g ≠ [] ∨ loose = some g)
  chain : ∀ b, (h.table b).Nodup
  unique : ∀ b b' g g', g ∈ h.table b → g' ∈ h.table b' → h.pgid g = h.pgid g' → g = g'
  live : ∀ p g, grp p = some g → g ∈ h.groups
  member : ∀ p, ∀ g ∈ h.groups, p ∈ h.members g ↔ grp p = some g
  once : ∀ g ∈ h.groups, (h.members g).Nodup
  count : ∀ g ∈ h.groups, h.numMembers g = (h.members g).length

structure Refs (h : Heap) (held kept : Nat → Nat) : Prop where
  groups_nodup : h.groups.Nodup
  sessions_nodup : h.sessions.Nodup
  refcount : ∀ g ∈ h.groups, h.refcount g = (h.members g).length + held g
  pos : ∀ g ∈ h.groups, 0 < h.refcount g
  held_mem : ∀ g, 0 < held g → g ∈ h.groups
  session_mem : ∀ g ∈ h.groups, h.session g ∈ h.sessions
  sessionRefcount : ∀ a ∈ h.sessions,
    h.sessionRefcount a = h.groups.countP (h.session · = a) + kept a
  session_pos : ∀ a ∈ h.sessions, 0 < h.sessionRefcount a
  kept_mem : ∀ a, 0 < kept a → a ∈ h.sessions

structure Ids (h : Heap) (grp : Nat → Option Nat) (used : Nat → Bool) : Prop where
  leader : ∀ p g, grp p = some g → h.sid (h.session g) = p → h.pgid g = p
  pgid_used : ∀ g ∈ h.groups, used (h.pgid g)
  sid_used : ∀ a ∈ h.sessions, used (h.sid a)
  pid_used : ∀ p g, grp p = some g → used p

structure Ok (h : Heap) (grp : Nat → Option Nat) (loose : Option Nat) (held kept : Nat → Nat)
    (used : Nat → Bool) : Prop where
  lists : Lists h grp loose
  refs : Refs h held kept
  ids : Ids h grp used

/-- One reference more to `x`. -/
def hold (f : Nat → Nat) (x : Nat) : Nat → Nat := update f x (f x + 1)

theorem hold_self (f : Nat → Nat) (x : Nat) : hold f x x = f x + 1 := update_self ..

theorem hold_of_ne (h : y ≠ x) : hold f x y = f y := update_of_ne h ..

theorem pos_of_hold (h : y ≠ x) (hy : 0 < hold f x y) : 0 < f y := by
  rwa [hold_of_ne h] at hy

theorem hold_update (f : Nat → Nat) (x : Nat) (h : 0 < f x) :
    hold (update f x (f x - 1)) x = f := by
  have heq : f x - 1 + 1 = f x := by omega
  simp [hold, heq]

/-- Every object on the list is counted: `base` of its references are kept in other objects, and the
rest is `held`. -/
structure Counted (live : List Nat) (count base held : Nat → Nat) : Prop where
  eq : ∀ x ∈ live, count x = base x + held x
  pos : ∀ x ∈ live, 0 < count x
  mem : ∀ x, 0 < held x → x ∈ live

namespace Counted

variable {live : List Nat} {count base held : Nat → Nat} {x : Nat}

theorem hold_mem (c : Counted live count base (hold held x)) : x ∈ live :=
  c.mem x (by simp [hold_self])

theorem mem_of_hold (c : Counted live count base (hold held x)) (y : Nat) (hy : 0 < held y) :
    y ∈ live := by
  by_cases hyx : y = x
  · exact hyx ▸ c.hold_mem
  · exact c.mem y (by rwa [hold_of_ne hyx])

theorem incref (c : Counted live count base held) (hx : x ∈ live) :
    Counted live (update count x (count x + 1)) base (hold held x) := by
  refine ⟨fun y hy => ?_, fun y hy => ?_, fun y hy => ?_⟩ <;> by_cases hyx : y = x
  · subst hyx
    simp only [update_self, hold_self, c.eq y hy]
    omega
  · simp [update_of_ne hyx, hold_of_ne hyx, c.eq y hy]
  · simp [hyx]
  · simpa [hyx] using c.pos y hy
  · exact hyx ▸ hx
  · exact c.mem y (pos_of_hold hyx hy)

theorem decref (c : Counted live count base (hold held x)) (hmr : count x ≠ 1) :
    Counted live (update count x (count x - 1)) base held := by
  have hpos := c.pos x c.hold_mem
  refine ⟨fun y hy => ?_, fun y hy => ?_, c.mem_of_hold⟩ <;> by_cases hyx : y = x
  · subst hyx
    have heq := c.eq y hy
    rw [hold_self] at heq
    simp only [update_self]
    omega
  · simp [update_of_ne hyx, c.eq y hy, hold_of_ne hyx]
  · subst hyx
    simp only [update_self]
    omega
  · simpa [hyx] using c.pos y hy

end Counted

section
variable {h : Heap} {held kept : Nat → Nat} (refs : Refs h held kept)
include refs

theorem Refs.ofGroups : Counted h.groups h.refcount (fun g => (h.members g).length) held :=
  ⟨refs.refcount, refs.pos, refs.held_mem⟩

theorem Refs.ofSessions :
    Counted h.sessions h.sessionRefcount (fun a => h.groups.countP (h.session · = a)) kept :=
  ⟨refs.sessionRefcount, refs.session_pos, refs.kept_mem⟩

end

namespace Ok

variable {h : Heap} {grp : Nat → Option Nat} {loose : Option Nat} {held kept : Nat → Nat}
  {used : Nat → Bool} {p g a : Nat}

/-! ### The small operations -/

section
variable (ok : Ok h grp loose held kept used)
include ok

theorem groupIncref (hg : g ∈ h.groups) :
    ∃ refs, h.groupIncref g = some { h with refcount := refs } ∧
      Ok { h with refcount := refs } grp loose (hold held g) kept used := by
  obtain ⟨heq, hpos, hmem⟩ := ok.refs.ofGroups.incref hg
  exact ⟨_, if_pos hg, { ok.lists with },
    { ok.refs with refcount := heq, pos := hpos, held_mem := hmem }, { ok.ids with }⟩

theorem sessionIncref (ha : a ∈ h.sessions) :
    ∃ refs, h.sessionIncref a = some { h with sessionRefcount := refs } ∧
      Ok { h with sessionRefcount := refs } grp loose held (hold kept a) used := by
  obtain ⟨heq, hpos, hmem⟩ := ok.refs.ofSessions.incref ha
  exact ⟨_, if_pos ha, { ok.lists with },
    { ok.refs with sessionRefcount := heq, session_pos := hpos, kept_mem := hmem },
    { ok.ids with }⟩

theorem setSession (ha : a ∉ h.sessions) (sid refs : Nat) :
    Ok { h with
      sid := update h.sid a sid
      sessionRefcount := update h.sessionRefcount a refs } grp loose held kept used := by
  have hne : ∀ x ∈ h.sessions, x ≠ a := fun x hx hxa => ha (hxa ▸ hx)
  refine ⟨{ ok.lists with },
    { ok.refs with sessionRefcount := ?_, session_pos := ?_ },
    { ok.ids with leader := ?_, sid_used := ?_ }⟩
  · intro x hx
    exact (update_of_ne (hne x hx) ..).trans (ok.refs.sessionRefcount x hx)
  · intro x hx
    simpa only [update_of_ne (hne x hx)] using ok.refs.session_pos x hx
  · intro q x hq hsid
    have hmem := ok.refs.session_mem x (ok.lists.live q x hq)
    exact ok.ids.leader q x hq ((update_of_ne (hne _ hmem) ..).symm.trans hsid)
  · intro x hx
    exact (congrArg (used · = true) (update_of_ne (hne x hx) ..)).mpr
      (ok.ids.sid_used x hx)

theorem sessionCreate (ha : a ∉ h.sessions) (hp : used p) :
    Ok (h.sessionCreate p a) grp loose held (hold kept a) used := by
  have ok' := ok.setSession ha p 1
  have hcnt : h.groups.countP (h.session · = a) = 0 := by
    refine countP_eq_zero.mpr fun g hg => ?_
    simpa using fun heq : h.session g = a => ha (heq ▸ ok.refs.session_mem g hg)
  have hkt : kept a = 0 := Nat.eq_zero_of_not_pos fun hpos => ha (ok.refs.kept_mem a hpos)
  refine ⟨{ ok'.lists with },
    { ok'.refs with
      sessions_nodup := nodup_cons.mpr ⟨ha, ok.refs.sessions_nodup⟩
      session_mem := fun g hg => mem_cons_of_mem _ (ok.refs.session_mem g hg)
      sessionRefcount := ?_, session_pos := ?_, kept_mem := ?_ },
    { ok'.ids with sid_used := ?_ }⟩
  · intro x hx
    by_cases hxa : x = a
    · subst hxa
      have hrf : 1 = h.groups.countP (h.session · = x) + (kept x + 1) := by omega
      simp only [Heap.sessionCreate, update_self, hold_self]
      exact hrf
    · rw [hold_of_ne hxa]
      exact ok'.refs.sessionRefcount x ((mem_cons.mp hx).resolve_left hxa)
  · intro x hx
    by_cases hxa : x = a
    · simp [Heap.sessionCreate, hxa]
    · exact ok'.refs.session_pos x ((mem_cons.mp hx).resolve_left hxa)
  · intro x hx
    by_cases hxa : x = a
    · simp [Heap.sessionCreate, hxa]
    · exact mem_cons_of_mem _ (ok.refs.kept_mem x (pos_of_hold hxa hx))
  · intro x hx
    by_cases hxa : x = a
    · simpa [Heap.sessionCreate, hxa] using hp
    · exact ok'.ids.sid_used x ((mem_cons.mp hx).resolve_left hxa)

end

theorem sessionDecref (ok : Ok h grp loose held (hold kept a) used) :
    ∃ sessions refs,
      h.sessionDecref a = some { h with sessions := sessions, sessionRefcount := refs } ∧
      Ok { h with sessions := sessions, sessionRefcount := refs } grp loose held kept used := by
  have ha := ok.refs.ofSessions.hold_mem
  have hrf := ok.refs.sessionRefcount a ha
  rw [hold_self] at hrf
  by_cases hlast : h.sessionRefcount a = 1
  · have hcnt : h.groups.countP (h.session · = a) = 0 := by omega
    have hoth : ∀ g ∈ h.groups, h.session g ≠ a := by simpa using countP_eq_zero.mp hcnt
    have hkt : kept a = 0 := by omega
    refine ⟨_, h.sessionRefcount, (if_pos ha).trans (if_pos hlast), { ok.lists with },
      { ok.refs with
        sessions_nodup := ok.refs.sessions_nodup.erase a
        session_mem := ?_, sessionRefcount := ?_, session_pos := ?_, kept_mem := ?_ },
      { ok.ids with sid_used := fun x hx => ok.ids.sid_used x (mem_of_mem_erase hx) }⟩
    · intro g hg
      exact (mem_erase_of_ne (hoth g hg)).mpr (ok.refs.session_mem g hg)
    · intro x hx
      obtain ⟨hxa, hx⟩ := (ok.refs.sessions_nodup.mem_erase_iff).mp hx
      exact (ok.refs.sessionRefcount x hx).trans (by rw [hold_of_ne hxa])
    · exact fun x hx => ok.refs.session_pos x (mem_of_mem_erase hx)
    intro x hx
    have hxa : x ≠ a := fun heq => by simp [heq, hkt] at hx
    exact (mem_erase_of_ne hxa).mpr (ok.refs.ofSessions.mem_of_hold x hx)
  · obtain ⟨heq, hpos, hmem⟩ := ok.refs.ofSessions.decref hlast
    exact ⟨h.sessions, _, (if_pos ha).trans (if_neg hlast), { ok.lists with },
      { ok.refs with sessionRefcount := heq, session_pos := hpos, kept_mem := hmem },
      { ok.ids with }⟩

/-- A session's last group takes it along: the reference goes first and the group after it, which
comes to the same as the other way round. -/
theorem sessionDecref_freeGroup (h : Heap) (a g : Nat) :
    (h.sessionDecref a).map (·.freeGroup g) = (h.freeGroup g).sessionDecref a := by
  by_cases ha : a ∈ h.sessions <;> by_cases hlast : h.sessionRefcount a = 1 <;>
    simp [Heap.sessionDecref, freeGroup, hlast]

theorem countP_session_erase (hg : g ∈ h.groups) (kept : Nat → Nat) (a : Nat) :
    h.groups.countP (h.session · = a) + kept a =
      (h.groups.erase g).countP (h.session · = a) + hold kept (h.session g) a := by
  have hpm := (perm_cons_erase hg).countP_eq (h.session · = a)
  rw [hpm, countP_cons]
  by_cases ha : h.session g = a
  · subst ha
    simp only [decide_true, if_true, hold_self]
    omega
  · simp only [ha, decide_false, Bool.false_eq_true, if_false, hold_of_ne (Ne.symm ha)]
    omega

theorem freeGroup (ok : Ok h grp none (hold held g) kept used) (hlast : h.refcount g = 1) :
    Ok (h.freeGroup g) grp none held (hold kept (h.session g)) used := by
  have hg := ok.refs.ofGroups.hold_mem
  have hrf := ok.refs.refcount g hg
  rw [hold_self] at hrf
  have hemp : h.members g = [] := eq_nil_of_length_eq_zero (by omega)
  have hheld : held g = 0 := by omega
  have hmem : ∀ x, x ∈ (h.freeGroup g).groups ↔ x ≠ g ∧ x ∈ h.groups := fun x =>
    ok.refs.groups_nodup.mem_erase_iff
  have hold : ∀ x ∈ (h.freeGroup g).groups, x ∈ h.groups := fun x hx => ((hmem x).mp hx).2
  refine ⟨{ ok.lists with
      listed := ?_, live := ?_
      member := fun q x hx => ok.lists.member q x (hold x hx)
      once := fun x hx => ok.lists.once x (hold x hx)
      count := fun x hx => ok.lists.count x (hold x hx) },
    { ok.refs with
      groups_nodup := ok.refs.groups_nodup.erase g
      refcount := ?_
      pos := fun x hx => ok.refs.pos x (hold x hx)
      held_mem := ?_
      session_mem := fun x hx => ok.refs.session_mem x (hold x hx)
      sessionRefcount := fun a ha =>
        (ok.refs.sessionRefcount a ha).trans (countP_session_erase hg kept a)
      kept_mem := ?_ },
    { ok.ids with pgid_used := fun x hx => ok.ids.pgid_used x (hold x hx) }⟩
  · intro b x
    rw [hmem x]
    refine (ok.lists.listed b x).trans ⟨?_, fun ⟨⟨_, hx⟩, hrs⟩ => ⟨hx, hrs⟩⟩
    rintro ⟨hx, hb, hmbs⟩
    have hxg : x ≠ g := fun heq => by simp [heq, hemp] at hmbs
    exact ⟨⟨hxg, hx⟩, hb, hmbs⟩
  · intro q x hq
    have hx := ok.lists.live q x hq
    have hxg : x ≠ g := fun heq => by
      have hin := (ok.lists.member q x hx).mpr hq
      simp [heq, hemp] at hin
    exact (hmem x).mpr ⟨hxg, hx⟩
  · intro x hx
    obtain ⟨hxg, hx⟩ := (hmem x).mp hx
    exact (ok.refs.refcount x hx).trans (by rw [hold_of_ne hxg]; rfl)
  · intro x hx
    have hxg : x ≠ g := fun heq => by simp [heq, hheld] at hx
    exact (hmem x).mpr ⟨hxg, ok.refs.held_mem x (by rwa [hold_of_ne hxg])⟩
  · intro x hx
    by_cases hxa : x = h.session g
    · exact hxa ▸ ok.refs.session_mem g hg
    · exact ok.refs.kept_mem x (pos_of_hold hxa hx)

theorem groupDecref (ok : Ok h grp none (hold held g) kept used) :
    ∃ h', h.groupDecref g = some h' ∧ Ok h' grp none held kept used := by
  have hg := ok.refs.ofGroups.hold_mem
  by_cases hlast : h.refcount g = 1
  · obtain ⟨sessions, refs, heq, ok'⟩ := (ok.freeGroup hlast).sessionDecref
    refine ⟨_, ?_, ok'⟩
    rw [Heap.groupDecref, if_pos hg, if_pos hlast, sessionDecref_freeGroup, heq]
  · obtain ⟨heq, hpos, hmem⟩ := ok.refs.ofGroups.decref hlast
    exact ⟨_, (if_pos hg).trans (if_neg hlast), { ok.lists with },
      { ok.refs with refcount := heq, pos := hpos, held_mem := hmem }, { ok.ids with }⟩

theorem putGroup (ok : Ok h grp none held (hold kept a) used) (hg : g ∉ h.groups)
    (hnew : ∀ b, ∀ x ∈ h.table b, h.pgid x ≠ p) (hp : used p) :
    Ok (h.putGroup p a g) grp (some g) (hold held g) kept used := by
  have hne : ∀ x ∈ h.groups, x ≠ g := fun x hx heq => hg (heq ▸ hx)
  have hall : ∀ {P : Nat → Prop}, P g → (∀ x ∈ h.groups, x ≠ g → P x) →
      ∀ x ∈ (h.putGroup p a g).groups, P x := fun hnew hold =>
    forall_mem_cons.mpr ⟨hnew, fun x hx => hold x hx (hne x hx)⟩
  have hheld : held g = 0 := Nat.eq_zero_of_not_pos fun hpos => hg (ok.refs.held_mem g hpos)
  have ha := ok.refs.ofSessions.hold_mem
  have hgrp : ∀ q x, grp q = some x → x ≠ g := fun q x hq => hne x (ok.lists.live q x hq)
  have hmem : ∀ b x, x ∈ (h.putGroup p a g).table b ↔
      (x = g ∧ b = pgidBucket p) ∨ x ∈ h.table b := by
    intro b x
    by_cases hb : b = pgidBucket p
    · subst hb
      simp
    · simp [hb]
  have htab : ∀ b, ∀ x ∈ h.table b, x ≠ g := fun b x hx =>
    hne x ((ok.lists.listed b x).mp hx).1
  refine ⟨⟨?_, ?_, ?_, ?_, ?_, ?_, ?_⟩,
    { ok.refs with
      groups_nodup := nodup_cons.mpr ⟨hg, ok.refs.groups_nodup⟩
      refcount := ?_, pos := ?_, held_mem := ?_, session_mem := ?_, sessionRefcount := ?_
      kept_mem := ?_ },
    { ok.ids with leader := ?_, pgid_used := ?_ }⟩
  · intro b x
    rw [hmem, ok.lists.listed b x]
    by_cases hxg : x = g
    · subst hxg
      simp [hg]
    · simp [hxg, Ne.symm hxg]
  · intro b
    by_cases hb : b = pgidBucket p
    · subst hb
      simpa using ⟨fun hin => htab _ g hin rfl, ok.lists.chain _⟩
    · simpa [hb] using ok.lists.chain b
  · intro b b' x y hx hy heq
    rcases (hmem b x).mp hx with ⟨rfl, -⟩ | hx1 <;> rcases (hmem b' y).mp hy with ⟨rfl, -⟩ | hy1
    · rfl
    · have hyg := htab b' y hy1
      simp only [Heap.putGroup, update_self, update_of_ne hyg] at heq
      exact absurd heq.symm (hnew b' y hy1)
    · have hxg := htab b x hx1
      simp only [Heap.putGroup, update_self, update_of_ne hxg] at heq
      exact absurd heq (hnew b x hx1)
    · have hxg := htab b x hx1
      have hyg := htab b' y hy1
      simp only [Heap.putGroup, update_of_ne hxg, update_of_ne hyg] at heq
      exact ok.lists.unique b b' x y hx1 hy1 heq
  · exact fun q x hq => mem_cons_of_mem _ (ok.lists.live q x hq)
  · refine fun q => hall ?_ fun x hx hxg => by
      simpa [hxg] using ok.lists.member q x hx
    simpa using fun hq => hgrp q g hq rfl
  · exact hall (by simp) fun x hx hxg => by
      simpa [hxg] using ok.lists.once x hx
  · exact hall (by simp) fun x hx hxg => by
      simpa [hxg] using ok.lists.count x hx
  · exact hall (by simp [hold_self, hheld]) fun x hx hxg => by
      simpa [hxg, hold_of_ne hxg] using ok.refs.refcount x hx
  · exact hall (by simp) fun x hx hxg => by
      simpa [hxg] using ok.refs.pos x hx
  · intro x hx
    by_cases hxg : x = g
    · simp [hxg]
    · exact mem_cons_of_mem _ (ok.refs.held_mem x (pos_of_hold hxg hx))
  · exact hall (by simpa using ha) fun x hx hxg => by
      simpa [hxg] using ok.refs.session_mem x hx
  · intro x hx
    have hrs : h.groups.countP ((h.putGroup p a g).session · = x) =
        h.groups.countP (h.session · = x) :=
      countP_congr fun y hy => by simp [hne y hy]
    have hrf := ok.refs.sessionRefcount x hx
    have hcons : (h.putGroup p a g).groups.countP ((h.putGroup p a g).session · = x) =
        h.groups.countP (h.session · = x) + if a = x then 1 else 0 := by
      rw [← hrs]
      simp [countP_cons]
    refine Eq.trans hrf (Eq.trans ?_ (congrArg (· + kept x) hcons.symm))
    by_cases hxa : a = x
    · subst hxa
      simp only [hold_self, if_true]
      omega
    · simp only [hold_of_ne (Ne.symm hxa), if_neg hxa]
      omega
  · exact ok.refs.ofSessions.mem_of_hold
  · intro q x hq
    have hxg := hgrp q x hq
    simpa [hxg] using ok.ids.leader q x hq
  · exact hall (by simpa using hp) fun x hx hxg => by
      simpa [hxg] using ok.ids.pgid_used x hx

theorem groupCreateLocked (ok : Ok h grp none held kept used) (ha : a ∈ h.sessions)
    (hg : g ∉ h.groups) (hnew : ∀ b, ∀ x ∈ h.table b, h.pgid x ≠ p) (hp : used p) :
    ∃ refs, h.groupCreateLocked p a g =
        some (Heap.putGroup { h with sessionRefcount := refs } p a g) ∧
      Ok (Heap.putGroup { h with sessionRefcount := refs } p a g) grp (some g) (hold held g) kept
        used := by
  obtain ⟨refs, heq, ok⟩ := ok.sessionIncref ha
  exact ⟨refs, by rw [Heap.groupCreateLocked, heq]; rfl, ok.putGroup hg hnew hp⟩

theorem addMember (ok : Ok h grp loose (hold held g) kept used) (hp : grp p = none)
    (htab : h.members g ≠ [] ∨ loose = some g) (hloo : ∀ x, loose = some x → x = g)
    (hus : used p) (hldr : h.sid (h.session g) = p → h.pgid g = p) :
    ∃ members counts,
      h.addMember p g = some { h with members := members, numMembers := counts } ∧
      Ok { h with members := members, numMembers := counts } (update grp p (some g)) none
        held kept used := by
  have hg := ok.refs.ofGroups.hold_mem
  have hnot : ∀ x ∈ h.groups, p ∉ h.members x := fun x hx hin => by
    have hgrp := (ok.lists.member p x hx).mp hin
    simp [hp] at hgrp
  refine ⟨_, _, if_pos hg, ⟨?_, ok.lists.chain, ok.lists.unique, ?_, ?_, ?_, ?_⟩,
    { ok.refs with refcount := ?_, held_mem := ?_ },
    { ok.ids with leader := ?_, pid_used := ?_ }⟩
  · intro b x
    rw [ok.lists.listed b x]
    by_cases hxg : x = g
    · subst hxg
      simp [htab]
    · have hx : loose ≠ some x := fun heq => hxg (hloo x heq)
      simp [hxg, hx]
  · intro q x hq
    by_cases hqp : q = p
    · simp only [hqp, update_self, Option.some.injEq] at hq
      exact hq ▸ hg
    · exact ok.lists.live q x (by simpa [hqp] using hq)
  · intro q x hx
    have hiff := ok.lists.member q x hx
    have hpx := hnot x hx
    by_cases hxg : x = g <;> by_cases hqp : q = p
    · subst hxg hqp
      simp
    · subst hxg
      simpa [hqp] using hiff
    · subst hqp
      simpa [hxg, Ne.symm hxg] using hpx
    · simpa [hxg, hqp] using hiff
  · intro x hx
    by_cases hxg : x = g
    · subst hxg
      simpa using ⟨hnot x hx, ok.lists.once x hx⟩
    · simpa [hxg] using ok.lists.once x hx
  · intro x hx
    have hcnt := ok.lists.count x hx
    by_cases hxg : x = g
    · subst hxg
      simpa using hcnt
    · simpa [hxg] using hcnt
  · intro x hx
    have hrf := ok.refs.refcount x hx
    by_cases hxg : x = g
    · subst hxg
      rw [hold_self] at hrf
      simp only [update_self, length_cons]
      omega
    · simpa [hxg, hold_of_ne hxg] using hrf
  · exact ok.refs.ofGroups.mem_of_hold
  · intro q x hq hsid
    by_cases hqp : q = p
    · simp only [hqp, update_self, Option.some.injEq] at hq
      subst hq hqp
      exact hldr hsid
    · exact ok.ids.leader q x (by simpa [hqp] using hq) hsid
  · intro q x hq
    by_cases hqp : q = p
    · exact hqp ▸ hus
    · exact ok.ids.pid_used q x (by simpa [hqp] using hq)

theorem dropMember_eq (ok : Ok h grp loose held kept used) (hp : grp p = some g) :
    ∃ table, h.dropMember p g = some { h with
        members := update h.members g ((h.members g).erase p)
        numMembers := update h.numMembers g (h.numMembers g - 1)
        table := table } ∧
      (∀ b x, x ∈ table b ↔ x ∈ h.table b ∧ ¬ (x = g ∧ (h.members g).erase p = [])) ∧
      ∀ b, (table b).Nodup := by
  have hg := ok.lists.live p g hp
  have hin := (ok.lists.member p g hg).mpr hp
  have hlen := length_erase_of_mem hin
  have hcnt := ok.lists.count g hg
  have hlast : h.numMembers g - 1 = 0 ↔ (h.members g).erase p = [] := by
    rw [← length_eq_zero_iff]
    omega
  by_cases h0 : h.numMembers g - 1 = 0
  · have hmem : g ∈ h.table (pgidBucket (h.pgid g)) :=
      (ok.lists.listed _ g).mpr ⟨hg, rfl, .inl (ne_nil_of_mem hin)⟩
    refine ⟨_, ((if_pos ⟨hg, hin⟩).trans (if_pos h0)).trans (if_pos ⟨hg, hmem⟩), ?_, ?_⟩
    · intro b x
      by_cases hb : b = pgidBucket (h.pgid g)
      · subst hb
        simp [(ok.lists.chain _).mem_erase_iff, hlast.mp h0, and_comm]
      · have hx : x ∈ h.table b → x ≠ g := fun hx heq =>
          hb (heq ▸ ((ok.lists.listed b x).mp hx).2.1)
        simpa [hb, hlast.mp h0] using hx
    · intro b
      by_cases hb : b = pgidBucket (h.pgid g)
      · subst hb
        simpa using (ok.lists.chain _).erase g
      · simpa [hb] using ok.lists.chain b
  · exact ⟨h.table, (if_pos ⟨hg, hin⟩).trans (if_neg h0),
      fun b x => by simp [mt hlast.mpr h0], ok.lists.chain⟩

theorem dropMember (ok : Ok h grp loose held kept used) (hp : grp p = some g)
    (hloo : loose ≠ some g) :
    ∃ members counts table,
      h.dropMember p g = some { h with
        members := update h.members g members, numMembers := counts, table := table } ∧
      Ok { h with
        members := update h.members g members, numMembers := counts, table := table }
        (update grp p none) loose (hold held g) kept used := by
  obtain ⟨table, heq, htab, hndp⟩ := ok.dropMember_eq hp
  have hg := ok.lists.live p g hp
  have hin := (ok.lists.member p g hg).mpr hp
  have hlen := length_erase_of_mem hin
  have hpos := length_pos_of_mem hin
  have hgrp : ∀ q x, update grp p none q = some x → grp q = some x := by
    intro q x hq
    by_cases hqp : q = p
    · simp [hqp] at hq
    · simpa [hqp] using hq
  refine ⟨_, _, table, heq, ⟨?_, hndp, ?_, ?_, ?_, ?_, ?_⟩,
    { ok.refs with refcount := ?_, held_mem := ?_ },
    { ok.ids with
      leader := fun q x hq => ok.ids.leader q x (hgrp q x hq)
      pid_used := fun q x hq => ok.ids.pid_used q x (hgrp q x hq) }⟩
  · intro b x
    rw [htab, ok.lists.listed b x]
    by_cases hxg : x = g
    · subst hxg
      simp [hloo, and_assoc]
    · simp [hxg]
  · exact fun b b' x y hx hy => ok.lists.unique b b' x y ((htab b x).mp hx).1
      ((htab b' y).mp hy).1
  · exact fun q x hq => ok.lists.live q x (hgrp q x hq)
  · intro q x hx
    have hiff := ok.lists.member q x hx
    by_cases hxg : x = g <;> by_cases hqp : q = p
    · subst hxg hqp
      simp [(ok.lists.once x hx).mem_erase_iff]
    · subst hxg
      simpa [hqp] using hiff
    · subst hqp
      simpa [hxg, hp, Ne.symm hxg] using hiff
    · simpa [hxg, hqp] using hiff
  · intro x hx
    by_cases hxg : x = g
    · subst hxg
      simpa using (ok.lists.once x hx).erase p
    · simpa [hxg] using ok.lists.once x hx
  · intro x hx
    have hcnt := ok.lists.count x hx
    by_cases hxg : x = g
    · subst hxg
      simp only [update_self]
      omega
    · simpa [hxg] using hcnt
  · intro x hx
    have hrf := ok.refs.refcount x hx
    by_cases hxg : x = g
    · subst hxg
      simp only [update_self, hold_self]
      omega
    · simpa [hxg, hold_of_ne hxg] using hrf
  · intro x hx
    by_cases hxg : x = g
    · exact hxg ▸ hg
    · exact ok.refs.held_mem x (pos_of_hold hxg hx)

theorem findInChain_eq (pgid : Nat) (hlive : ∀ x ∈ chain, x ∈ h.groups) :
    h.findInChain pgid chain = some (chain.find? (h.pgid · = pgid)) := by
  induction chain with
  | nil => rfl
  | cons x rest ih =>
    have hrs := ih fun y hy => hlive y (mem_cons_of_mem _ hy)
    by_cases hx : h.pgid x = pgid
    · simp [findInChain, hlive, hx]
    · simp [findInChain, hlive, hx, hrs]

theorem findInTable (ok : Ok h grp loose held kept used) (pgid : Nat) :
    (h.findInTable pgid = some none ∧ ∀ b, ∀ x ∈ h.table b, h.pgid x ≠ pgid) ∨
    ∃ g, h.findInTable pgid = some (some g) ∧ g ∈ h.groups ∧
      (h.members g ≠ [] ∨ loose = some g) := by
  have hlive : ∀ x ∈ h.table (pgidBucket pgid), x ∈ h.groups := fun x hx =>
    ((ok.lists.listed _ x).mp hx).1
  rw [Heap.findInTable, findInChain_eq pgid hlive]
  cases hfd : (h.table (pgidBucket pgid)).find? (h.pgid · = pgid) with
  | none =>
    refine .inl ⟨rfl, fun b x hx hpgid => ?_⟩
    have hb : b = pgidBucket pgid := hpgid ▸ ((ok.lists.listed b x).mp hx).2.1
    simpa [hpgid] using find?_eq_none.mp hfd x (hb ▸ hx)
  | some g =>
    obtain ⟨hg, -, hmbs⟩ := (ok.lists.listed _ g).mp (mem_of_find?_eq_some hfd)
    exact .inr ⟨g, rfl, hg, hmbs⟩

end Ok

end Vex.Proc.Pgrp
