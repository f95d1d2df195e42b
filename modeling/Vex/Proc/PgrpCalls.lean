import Vex.Lib.Run
import Vex.Proc.PgrpInv

/-! Every call on process groups comes to its end and keeps the invariant, so groups and sessions
are well formed after any sequence of calls. -/

namespace Vex.Proc.Pgrp

open Lib Function Option

/-! ## The calls -/

namespace State

variable {s : State} {p g : Nat}

/-- The invariant between two calls. -/
def Inv (s : State) : Prop := Ok s.heap s.group none s.holders (fun _ => 0) s.used

/-- A call comes to its end, in a state with the invariant. -/
def Keeps (result : Option (Except Errno Nat × State)) : Prop :=
  ∃ r s', result = some (r, s') ∧ s'.Inv

section
variable {loose : Option Nat} {held kept : Nat → Nat} {used : Nat → Bool} {old a : Nat}

theorem moveLocked_ok (ok : Ok s.heap s.group loose held kept used) (hp : s.group p = some old)
    (hne : old ≠ g) (hg : g ∈ s.heap.groups) (htab : s.heap.members g ≠ [] ∨ loose = some g)
    (hloo : ∀ x, loose = some x → x = g)
    (hldr : s.heap.sid (s.heap.session g) = p → s.heap.pgid g = p) :
    ∃ h, s.moveLocked p g = some { s with heap := h, group := update s.group p (some g) } ∧
      Ok h (update s.group p (some g)) none held kept used := by
  obtain ⟨members, counts, table, hdrop, ok1⟩ := ok.dropMember hp fun heq => hne (hloo old heq)
  obtain ⟨refs, hinc, ok2⟩ := ok1.groupIncref hg
  have hmbs : update s.heap.members old members g ≠ [] ∨ loose = some g := by
    simpa [Ne.symm hne] using htab
  obtain ⟨members', counts', hadd, ok3⟩ := ok2.addMember (update_self ..) hmbs hloo
    (ok.ids.pid_used p old hp) hldr
  rw [update_idem] at ok3
  obtain ⟨h, hdec, ok4⟩ := ok3.groupDecref
  refine ⟨h, ?_, ok4⟩
  simp [moveLocked, leaveLocked, lift, joinLocked, hp, hdrop, hinc, hadd, hdec]

theorem createSession_ok (ok : Ok s.heap s.group none held kept used) (ha : a ∉ s.heap.sessions)
    (hg : g ∉ s.heap.groups) (hp : used p) (hnew : ∀ b, ∀ x ∈ s.heap.table b, s.heap.pgid x ≠ p) :
    ∃ h, s.createSession p (some a) (some g) = some (some g, { s with heap := h }) ∧
      h.pgid g = p ∧ Ok h s.group (some g) (hold held g) kept used := by
  obtain ⟨refs, hcre, ok1⟩ := (ok.sessionCreate ha hp).groupCreateLocked
    (List.mem_cons_self ..) hg hnew hp
  obtain ⟨sessions, refs', hdec, ok2⟩ := ok1.sessionDecref
  refine ⟨_, ?_, ?_, ok2⟩
  · simp [createSession, lift, hcre, hdec]
  · simp [Heap.putGroup]

theorem createSession_fails (ok : Ok s.heap s.group none held kept used) {group : Option Nat}
    (ha : Fresh s.heap.sessions session) (hfa : session = none ∨ group = none) :
    ∃ h, s.createSession p session group = some (none, { s with heap := h }) ∧
      Ok h s.group none held kept used := by
  cases session with
  | none => exact ⟨s.heap, rfl, ok⟩
  | some a =>
    obtain rfl : group = none := hfa.resolve_left nofun
    refine ⟨_, ?_, ok.setSession ha p 1⟩
    simp [createSession, lift, Heap.sessionDecref, Heap.sessionCreate]

theorem attach_join (ok : Ok s.heap s.group loose (hold s.holders g) (fun _ => 0)
      (update s.used p true)) (hp : s.group p = none)
    (htab : s.heap.members g ≠ [] ∨ loose = some g) (hloo : ∀ x, loose = some x → x = g)
    (hldr : s.heap.sid (s.heap.session g) = p → s.heap.pgid g = p) :
    Keeps ((s.joinLocked p g).map fun s =>
      (.ok 0, { s with used := update s.used p true })) := by
  obtain ⟨members, counts, hadd, ok'⟩ := ok.addMember hp htab hloo (by simp) hldr
  refine ⟨.ok 0, { s with
    heap := { s.heap with members := members, numMembers := counts }
    group := update s.group p (some g)
    used := update s.used p true }, ?_, ok'⟩
  simp [joinLocked, hadd]

end

section
variable (hs : s.Inv)
include hs

theorem Inv.unattached (hp : s.used p = false) : s.group p = none := by
  cases hgrp : s.group p with
  | none => rfl
  | some g => simp [hs.ids.pid_used p g hgrp] at hp

theorem Inv.use (p : Nat) :
    Ok s.heap s.group none s.holders (fun _ => 0) (update s.used p true) := by
  have hmono : ∀ x, s.used x → update s.used p true x := fun x hx => by
    by_cases hxp : x = p <;> simp [hxp, hx]
  exact ⟨hs.lists, hs.refs,
    { hs.ids with
      pgid_used := fun g hg => hmono _ (hs.ids.pgid_used g hg)
      sid_used := fun a ha => hmono _ (hs.ids.sid_used a ha)
      pid_used := fun q g hq => hmono _ (hs.ids.pid_used q g hq) }⟩

theorem Inv.pgid_ne (hp : s.used p = false) :
    ∀ b, ∀ x ∈ s.heap.table b, s.heap.pgid x ≠ p := by
  intro b x hx heq
  have hus := hs.ids.pgid_used x ((hs.lists.listed b x).mp hx).1
  simp [heq, hp] at hus

theorem Inv.members_ne_nil (hp : s.group p = some g) : s.heap.members g ≠ [] :=
  List.ne_nil_of_mem ((hs.lists.member p g (hs.lists.live p g hp)).mpr hp)

theorem Inv.attach (parent session group : Option Nat) (hp : s.used p = false)
    (hpar : ∀ q ∈ parent, (s.group q).isSome) (ha : Fresh s.heap.sessions session)
    (hg : Fresh s.heap.groups group) :
    Keeps (s.processGroupAttach p parent session group) := by
  have hnone := hs.unattached hp
  cases parent with
  | some q =>
    obtain ⟨g, hq⟩ := isSome_iff_exists.mp (hpar q rfl)
    have hmem := hs.lists.live q g hq
    obtain ⟨refs, hinc, ok⟩ := (hs.use p).groupIncref hmem
    have hsid := hs.ids.sid_used _ (hs.refs.session_mem g hmem)
    have hldr : s.heap.sid (s.heap.session g) = p → s.heap.pgid g = p := fun heq => by
      simp [heq, hp] at hsid
    obtain ⟨r, s', heq, hs'⟩ := attach_join
      (s := { s with heap := { s.heap with refcount := refs } }) ok hnone
      (.inl (hs.members_ne_nil hq)) nofun hldr
    exact ⟨r, s', by simpa [processGroupAttach, hq, lift, hinc] using heq, hs'⟩
  | none =>
    by_cases hfa : session = none ∨ group = none
    · obtain ⟨h, heq, ok⟩ := createSession_fails (p := p) hs ha hfa
      exact ⟨.error .ENOMEM, { s with heap := h }, by simp [processGroupAttach, heq], ok⟩
    obtain ⟨⟨a, rfl⟩, ⟨g, rfl⟩⟩ : (∃ a, session = some a) ∧ ∃ g, group = some g := by
      simpa [ne_none_iff_exists'] using hfa
    obtain ⟨h, heq, hpgid, ok⟩ := createSession_ok (hs.use p) ha hg (by simp) (hs.pgid_ne hp)
    obtain ⟨r, s', hjoin, hs'⟩ := attach_join (s := { s with heap := h }) ok hnone (.inr rfl)
      (fun _ h => (some.inj h).symm) fun _ => hpgid
    exact ⟨r, s', by simpa [processGroupAttach, heq] using hjoin, hs'⟩

theorem Inv.detach : Keeps (s.processGroupDetach p) := by
  cases hp : s.group p with
  | none => exact ⟨.ok 0, s, by simp [processGroupDetach, hp], hs⟩
  | some g =>
    obtain ⟨members, counts, table, hdrop, ok1⟩ := Ok.dropMember hs hp nofun
    obtain ⟨h, hdec, ok2⟩ := ok1.groupDecref
    refine ⟨.ok 0, { s with heap := h, group := update s.group p none }, ?_, ok2⟩
    simp [processGroupDetach, leaveLocked, lift, hp, hdrop, hdec]

theorem Inv.newSession (session group : Option Nat) (hp : (s.group p).isSome)
    (ha : Fresh s.heap.sessions session) (hg : Fresh s.heap.groups group) :
    Keeps (s.processGroupNewSession p session group) := by
  obtain ⟨old, hold⟩ := isSome_iff_exists.mp hp
  rcases Ok.findInTable hs p with ⟨hfd, hnew⟩ | ⟨g, hfd, -⟩
  · by_cases hfa : session = none ∨ group = none
    · obtain ⟨h, heq, ok⟩ := createSession_fails (p := p) hs ha hfa
      exact ⟨.error .ENOMEM, { s with heap := h }, by simp [processGroupNewSession, hfd, heq], ok⟩
    obtain ⟨⟨a, rfl⟩, ⟨g, rfl⟩⟩ : (∃ a, session = some a) ∧ ∃ g, group = some g := by
      simpa [ne_none_iff_exists'] using hfa
    obtain ⟨h, heq, hpgid, ok⟩ := createSession_ok hs ha hg (hs.ids.pid_used p old hold) hnew
    have hne : old ≠ g := fun heq => hg (heq ▸ hs.lists.live p old hold)
    obtain ⟨h', hmv, ok'⟩ := moveLocked_ok (s := { s with heap := h }) ok hold hne
      (ok.refs.held_mem g (by simp [hold_self])) (.inr rfl)
      (fun _ h => (some.inj h).symm) fun _ => hpgid
    obtain ⟨h'', hdec, ok''⟩ := ok'.groupDecref
    refine ⟨.ok p, { s with heap := h'', group := update s.group p (some g) }, ?_, ok''⟩
    simp [processGroupNewSession, hfd, heq, hmv, lift, hdec]
  · exact ⟨.error .EPERM, s, by simp [processGroupNewSession, hfd], hs⟩

end

theorem moveTo_ok (ok : Ok s.heap s.group loose (hold held g) (fun _ => 0) s.used)
    (hp : (s.group p).isSome) (htab : s.heap.members g ≠ [] ∨ loose = some g)
    (hloo : ∀ x, loose = some x → x = g ∧ s.group p ≠ some g)
    (hldr : s.heap.sid (s.heap.session g) ≠ p) :
    ∃ h grp, s.moveTo p g = some { s with heap := h, group := grp } ∧
      Ok h grp none held (fun _ => 0) s.used := by
  obtain ⟨old, hold⟩ := isSome_iff_exists.mp hp
  by_cases hsame : old = g
  · subst hsame
    obtain rfl : loose = none := eq_none_iff_forall_ne_some.mpr fun x hx =>
      (hloo x hx).2 hold
    obtain ⟨h, hdec, ok'⟩ := ok.groupDecref
    exact ⟨h, s.group, by simp [moveTo, hold, lift, hdec], ok'⟩
  · obtain ⟨h, hmv, ok1⟩ := moveLocked_ok ok hold hsame
      (ok.refs.held_mem g (by simp [hold_self])) htab (fun x hx => (hloo x hx).1)
      fun heq => absurd heq hldr
    obtain ⟨h', hdec, ok2⟩ := ok1.groupDecref
    exact ⟨h', _, by simp [moveTo, hold, hsame, hmv, lift, hdec], ok2⟩

theorem checkMovableLocked_ok (h : s.checkMovableLocked own p session didExec = .ok ()) :
    (s.group p).isSome ∧ s.heap.sid session ≠ p := by
  unfold checkMovableLocked at h
  cases hp : s.group p with
  | none => simp [hp] at h
  | some g =>
    simp only [hp] at h
    split at h
    · cases h
    split at h
    · cases h
    split at h
    · cases h
    next hsid => exact ⟨rfl, Ne.symm hsid⟩

theorem destinationLocked_ok (hs : s.Inv) (pgid : Nat) (group : Option Nat)
    (hses : session ∈ s.heap.sessions) (hp : (s.group p).isSome)
    (hg : Fresh s.heap.groups group) :
    (∃ e, s.destinationLocked p pgid session group = some (.error e, s)) ∨
    ∃ g h loose, s.destinationLocked p pgid session group = some (.ok g, { s with heap := h }) ∧
      Ok h s.group loose (hold s.holders g) (fun _ => 0) s.used ∧
      (h.members g ≠ [] ∨ loose = some g) ∧
      (∀ x, loose = some x → x = g ∧ s.group p ≠ some g) ∧
      h.session g = session ∧ h.sid = s.heap.sid := by
  obtain ⟨old, hold⟩ := isSome_iff_exists.mp hp
  rcases Ok.findInTable hs pgid with ⟨hfd, hnew⟩ | ⟨g, hfd, hmem, hmbs⟩
  · by_cases hpgid : pgid = p
    · subst hpgid
      cases group with
      | none => exact .inl ⟨.ENOMEM, by simp [destinationLocked, hfd]⟩
      | some g =>
        obtain ⟨refs, hcre, ok⟩ := Ok.groupCreateLocked hs hses hg hnew
          (hs.ids.pid_used pgid old hold)
        refine .inr ⟨g, _, _, by simp [destinationLocked, hfd, lift, hcre], ok, .inr rfl, ?_,
          by simp [Heap.putGroup], rfl⟩
        intro x hx
        exact ⟨(some.inj hx).symm, fun heq => hg (hs.lists.live pgid g heq)⟩
    · exact .inl ⟨.EPERM, by simp [destinationLocked, hfd, hpgid]⟩
  · by_cases hsame : s.heap.session g = session
    · obtain ⟨refs, hinc, ok⟩ := Ok.groupIncref hs hmem
      exact .inr ⟨g, _, none, by simp [destinationLocked, hfd, hsame, lift, hinc], ok,
        hmbs, by rintro _ ⟨⟩, hsame, rfl⟩
    · exact .inl ⟨.EPERM, by simp [destinationLocked, hfd, hsame]⟩

theorem Inv.move (hs : s.Inv) (pgid : Nat) (child didExec : Bool) (group : Option Nat)
    (hcaller : (s.group caller).isSome) (hg : Fresh s.heap.groups group) :
    Keeps (s.processGroupMove caller p pgid child didExec group) := by
  obtain ⟨own, hown⟩ := isSome_iff_exists.mp hcaller
  unfold processGroupMove
  split
  · exact ⟨_, s, rfl, hs⟩
  simp only [hown, bind_some]
  split
  · exact ⟨_, s, rfl, hs⟩
  next hchk =>
  obtain ⟨hp, hldr⟩ := checkMovableLocked_ok hchk
  have hses := hs.refs.session_mem own (hs.lists.live caller own hown)
  rcases destinationLocked_ok hs pgid group hses hp hg with
    ⟨e, heq⟩ | ⟨g, h, loose, heq, ok, htab, hloo, hsame, hsid⟩
  · exact ⟨_, s, by rw [heq]; rfl, hs⟩
  obtain ⟨h', grp, hmv, ok'⟩ := moveTo_ok (s := { s with heap := h }) ok hp htab hloo
    (by simpa [hsame, hsid] using hldr)
  refine ⟨.ok 0, { s with heap := h', group := grp }, ?_, ok'⟩
  simp [heq, hmv]

theorem Inv.find (hs : s.Inv) (pgid : Nat) : Keeps (s.processGroupFind pgid) := by
  rcases Ok.findInTable hs pgid with ⟨hfd, -⟩ | ⟨g, hfd, hmem, -⟩
  · exact ⟨.error .ESRCH, s, by simp [processGroupFind, hfd], hs⟩
  obtain ⟨refs, hinc, ok⟩ := Ok.groupIncref hs hmem
  refine ⟨.ok g, { s with
    heap := { s.heap with refcount := refs }, holders := hold s.holders g }, ?_, ok⟩
  simp [processGroupFind, hfd, lift, hinc, hold]

theorem Inv.decref (hs : s.Inv) (hg : 0 < s.holders g) : Keeps (s.processGroupDecref g) := by
  have ok : Ok s.heap s.group none
      (hold (update s.holders g (s.holders g - 1)) g) (fun _ => 0) s.used := by
    rw [hold_update _ _ hg]
    exact hs
  obtain ⟨h, hdec, ok'⟩ := ok.groupDecref
  refine ⟨.ok 0, { s with
    heap := h, holders := update s.holders g (s.holders g - 1) }, ?_, ok'⟩
  simp [processGroupDecref, lift, hdec]

theorem init_inv : init.Inv := by
  refine ⟨⟨?_, ?_, ?_, ?_, ?_, ?_, ?_⟩, ⟨?_, ?_, ?_, ?_, ?_, ?_, ?_, ?_, ?_⟩, ⟨?_, ?_, ?_, ?_⟩⟩ <;>
    simp [init]

/-- Every call that can be made comes to its end and keeps the invariant. -/
theorem Inv.call (hs : s.Inv) (hc : s.Allowed c) : Keeps (s.call c) := by
  cases c with
  | attach p parent session group =>
    obtain ⟨hp, hpar, ha, hg⟩ := hc
    exact hs.attach parent session group hp hpar ha hg
  | detach p => exact hs.detach
  | move caller p pgid child didExec group => exact hs.move pgid child didExec group hc.1 hc.2
  | newSession p session group => exact hs.newSession session group hc.1 hc.2.1 hc.2.2
  | find pgid => exact hs.find pgid
  | decref g => exact hs.decref hc

theorem Inv.next (hs : s.Inv) (h : Fires next s a s') : s'.Inv := by
  obtain ⟨halw, hcl⟩ := ite_none_right_eq_some.mp h
  obtain ⟨r, s'', heq, hs'⟩ := hs.call halw
  obtain ⟨-, rfl⟩ : r = a.2 ∧ s'' = s' := by simpa using heq.symm.trans hcl
  exact hs'

end State

/-! ## Well-formed groups and sessions -/

structure WellFormed (s : State) : Prop where
  /-- The table holds exactly the groups with a member, each once and in its bucket. -/
  table : ∀ b g, g ∈ s.heap.table b ↔
    g ∈ s.heap.groups ∧ b = pgidBucket (s.heap.pgid g) ∧ s.heap.members g ≠ []
  table_nodup : ∀ b, (s.heap.table b).Nodup
  /-- There is at most one group in it with an id. -/
  unique : ∀ b b' g g', g ∈ s.heap.table b → g' ∈ s.heap.table b' →
    s.heap.pgid g = s.heap.pgid g' → g = g'
  /-- A process is on the list of its own group, once, and on no other. -/
  group_live : ∀ p g, s.group p = some g → g ∈ s.heap.groups
  member : ∀ p, ∀ g ∈ s.heap.groups, p ∈ s.heap.members g ↔ s.group p = some g
  members_nodup : ∀ g ∈ s.heap.groups, (s.heap.members g).Nodup
  numMembers : ∀ g ∈ s.heap.groups, s.heap.numMembers g = (s.heap.members g).length
  /-- The leader of a session is in the group with its id. -/
  leader : ∀ p g, s.group p = some g → s.heap.sid (s.heap.session g) = p → s.heap.pgid g = p
  /-- A group is there as long as it has a member or a holder, and counts them. -/
  refcount : ∀ g ∈ s.heap.groups, s.heap.refcount g = (s.heap.members g).length + s.holders g
  refcount_pos : ∀ g ∈ s.heap.groups, 0 < s.heap.refcount g
  held : ∀ g, 0 < s.holders g → g ∈ s.heap.groups
  /-- A session is there as long as it has a group, and counts them. -/
  session_live : ∀ g ∈ s.heap.groups, s.heap.session g ∈ s.heap.sessions
  sessionRefcount : ∀ a ∈ s.heap.sessions,
    s.heap.sessionRefcount a = s.heap.groups.countP (s.heap.session · = a)
  sessionRefcount_pos : ∀ a ∈ s.heap.sessions, 0 < s.heap.sessionRefcount a
  /-- No address is that of two objects. -/
  groups_nodup : s.heap.groups.Nodup
  sessions_nodup : s.heap.sessions.Nodup

theorem State.Inv.wellFormed (hs : s.Inv) : WellFormed s where
  table b g := by simpa using hs.lists.listed b g
  table_nodup := hs.lists.chain
  unique := hs.lists.unique
  group_live := hs.lists.live
  member := hs.lists.member
  members_nodup := hs.lists.once
  numMembers := hs.lists.count
  leader := hs.ids.leader
  refcount := hs.refs.refcount
  refcount_pos := hs.refs.pos
  held := hs.refs.held_mem
  session_live := hs.refs.session_mem
  sessionRefcount := hs.refs.sessionRefcount
  sessionRefcount_pos := hs.refs.session_pos
  groups_nodup := hs.refs.groups_nodup
  sessions_nodup := hs.refs.sessions_nodup

/-- **Process groups and sessions are well formed after every sequence of calls**, and every next
call comes to its end without an access to a freed object. -/
theorem groups_well_formed {as : List (Call × Except Errno Nat)} {s : State}
    (h : Run (Fires State.next) State.init as s) :
    WellFormed s ∧ ∀ c, s.Allowed c → ∃ r s', s.next c = some (r, s') := by
  have hs : s.Inv := h.invariant (fun hs hstep => hs.next hstep) State.init_inv
  refine ⟨hs.wellFormed, fun c hc => ?_⟩
  obtain ⟨r, s', heq, -⟩ := hs.call hc
  exact ⟨r, s', by rw [State.next, if_pos hc, heq]⟩

/-- A child gets a group of its own and a child there. The group is found, and the grandchild
goes. -/
theorem groups_well_formed_shell : ∃ as s, Run (Fires State.next) State.init as s ∧
    s.heap.members 1 = [2] ∧ s.heap.refcount 1 = 2 ∧ s.heap.pgid 1 = 2 ∧ WellFormed s := by
  let calls : List Call :=
    [.attach 1 none (some 0) (some 0), .attach 2 (some 1) none none,
      .move 1 2 2 true false (some 1), .newSession 1 (some 1) none, .attach 3 (some 2) none none,
      .find 2, .detach 3]
  have htrace : trace State.next State.init calls = some (_, _) := rfl
  have hrun := (Run.of_trace htrace).1
  exact ⟨_, _, hrun, rfl, rfl, rfl, (groups_well_formed hrun).1⟩

end Vex.Proc.Pgrp
