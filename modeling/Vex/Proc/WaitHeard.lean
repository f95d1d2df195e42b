import Vex.Proc.WaitInv

/-! A thread that sleeps in `wait_child` hears of every child it waits for: the steps of exits,
adoptions and waits keep the invariant. -/

namespace Vex.Proc.Wait

open Lib Function Option World

attribute [local simp] World.setPpid Notifies setChildren World.setLocks World.setThreads
  World.setEvent World.trigger World.setListed World.setWait

variable {P T G : Type} [DecidableEq P] [DecidableEq G]
variable {sys : System P T G} {s s' : World P T G} {p q c : P} {t : T}

namespace Inv

omit [DecidableEq G] in
theorem mem_adopter (h : q ∈ s.adopter sys p) : q = sys.init ∧ q ≠ p := by
  obtain ⟨hloc, hne⟩ := filter_eq_some_iff.mp (mem_def.mp h)
  obtain ⟨hin, -⟩ := filter_eq_some_iff.mp hloc
  exact ⟨(some.inj hin).symm, by simpa using hne⟩

theorem startAdopting (inv : Inv sys s) (hpc : s.exits p = .notified)
    (hfree : ∀ q ∈ locks p (s.adopter sys p), s.lock q = none) :
    Inv sys ((s.setLocks (locks p (s.adopter sys p)) (some (.exit p))).setExit p
      (.adopting (s.adopter sys p) none (s.children p) false)) := by
  have inv' : Inv sys (s.setLocks (locks p (s.adopter sys p)) (some (.exit p))) :=
    inv.setLocks (fun q hq => by simp [Idle, hfree q hq]) _
  refine inv'.setExit _ ⟨inv.exits_of hpc, ?_, ?_, ?_, ?_⟩ (by simp) (by simp) ?_ ?_
  · intro q hq
    simp [hq]
  · exact fun q hq => (mem_adopter hq).1
  · exact fun c hc => hc
  · exact fun c hc hn => absurd hc hn
  · simp [hpc]
  · simp [hpc]

variable {i : Option P} {todo : List P} {note : Bool}

/-- The flags of a child are read: it was not dead before its new parent's number was stored, or
there is a note now. -/
theorem checkFlags (inv : Inv sys s) (hpc : s.exits p = .adopting i (some c) todo note) :
    Inv sys (s.setExit p (.adopting i none todo (note || s.zombie c))) := by
  obtain ⟨hths, hlck, hin, htd, hdone⟩ := inv.exits_of hpc
  refine inv.setExit _ ⟨hths, hlck, hin, htd, fun d hd hn => ⟨(hdone d hd hn).1, ?_⟩⟩
    (by simp) (by simp) (by simp [hpc]) (by simp [hpc])
  intro q hq hrun _ hz
  by_cases hdc : d = c
  · subst hdc
    simp [hz]
  · rcases (hdone d hd hn).2 q hq hrun (by simpa using Ne.symm hdc) hz with hnote | hto
    · simp [hnote]
    · exact .inr hto

theorem storePpid (inv : Inv sys s) (hpc : s.exits p = .adopting i none (c :: todo) note) :
    Inv sys ((s.setPpid c i).setExit p
      (.adopting i (if note then none else some c) todo note)) := by
  obtain ⟨hths, hlck, hin, htd, hdone⟩ := inv.exits_of hpc
  have inv' : Inv sys (s.setPpid c i) := by
    refine inv.setPpid fun q hq => ?_
    have hqp : q = p := inv.only q p c hq (htd c (by simp))
    subst hqp
    refine ⟨by simp [hpc], fun j child todo' note' hpc' => ?_⟩
    cases hpc.symm.trans hpc'
    simp
  refine inv'.setExit _ ⟨hths, hlck, hin, fun d hd => htd d (by simp [hd]), ?_⟩
    (by simp) (by simp) (by simp [hpc]) (by simp [hpc])
  intro d hd hn
  by_cases hdc : d = c
  · subst hdc
    refine ⟨by simp, fun q hq hrun hch _ => .inl ?_⟩
    by_contra hnote
    simp [hnote] at hch
  · have hold := hdone d hd (by simp [hdc, hn])
    refine ⟨by simpa [hdc] using hold.1, fun q hq hrun _ hz => ?_⟩
    exact hold.2 q hq hrun (by simp) hz

omit [DecidableEq G] in
theorem mem_splice (h : c ∈ (s.splice p i).children q) :
    q ≠ p ∧ (c ∈ s.children q ∨ q ∈ i ∧ c ∈ s.children p) := by
  cases i with
  | none =>
    by_cases hq : q = p
    · simp [splice, hq] at h
    · exact ⟨hq, .inl (by simpa [splice, hq] using h)⟩
  | some i =>
    by_cases hq : q = p
    · simp [splice, hq] at h
    refine ⟨hq, ?_⟩
    by_cases hi : q = i
    · subst hi
      have h : c ∈ s.children p ∨ c ∈ s.children q := by
        simpa [splice, hq] using h
      exact h.symm.imp_right fun h => ⟨rfl, h⟩
    · exact .inl (by simpa [splice, hq, hi] using h)

omit [DecidableEq G] in
theorem splice_children_of_ne (hp : q ≠ p) (hi : q ∉ i) :
    (s.splice p i).children q = s.children q := by
  cases i with
  | none => simp [splice, hp]
  | some i =>
    have hne : q ≠ i := fun h => hi (h ▸ rfl)
    simp [splice, hp, hne]

/-- The children go over to an adopter that is about to be told of the zombies among them. -/
theorem splice (inv : Inv sys s) (hpc : s.exits p = .adopted i note)
    (hlck : ∀ q ∈ locks p i, s.lock q = some (.exit p))
    (hin : ∀ q ∈ i, q = sys.init)
    (hkids : ∀ c ∈ s.children p, s.ppid c = i ∧
      ∀ q ∈ i, s.exits q = .running → s.zombie c → note ∨ Notifies s c q) :
    Inv sys (s.splice p i) := by
  have hmem : ∀ {q}, q ∈ i → s.lock q = some (.exit p) := fun hq =>
    hlck _ (by simp [locks, mem_def.mp hq])
  suffices inv' : Inv sys { s with children := (s.splice p i).children } by cases i <;> exact inv'
  refine inv.setKids ?_ ?_ ?_ ?_
  · intro q j child todo note' hq
    have hqp : q ≠ p := by
      rintro rfl
      cases hpc.symm.trans hq
    refine splice_children_of_ne hqp fun hi => hqp ?_
    have hlk := (inv.exits_of hq).2.1 q (by simp [locks])
    simpa [hmem hi, eq_comm] using hlk
  · intro t sel todo m ht c hc
    refine (mem_splice hc).2.resolve_right fun hi => ?_
    cases (hmem hi.1).symm.trans (inv.waits_of ht).2.1
  · intro q c hc
    refine (mem_splice hc).2.imp_right ?_
    rintro ⟨hi, hc⟩
    refine ⟨hin q hi ▸ inv.init, fun hunb => (inv.exits_of hunb).2.2.2 p hc,
      fun hrun => ⟨(hkids c hc).1.trans hi, fun hz => ?_⟩⟩
    rcases (hkids c hc).2 q hi hrun hz with hnote | hto
    · exact .inr ⟨p, by rw [hpc, hnote, hi]⟩
    · exact .inl hto
  · intro q r c hq hr
    obtain ⟨hqp, hq⟩ := mem_splice hq
    obtain ⟨hrp, hr⟩ := mem_splice hr
    rcases hq with hq | ⟨hqi, hq⟩ <;> rcases hr with hr | ⟨hri, hr⟩
    · exact inv.only q r c hq hr
    · exact absurd (inv.only q p c hq hr) hqp
    · exact absurd (inv.only r p c hr hq) hrp
    · exact mem_unique hqi hri

theorem handOver (inv : Inv sys s) (hpc : s.exits p = .adopting i none [] note) :
    Inv sys (((s.setExit p (.adopted i note)).splice p i).setLocks (locks p i) none) := by
  obtain ⟨hths, hlck, hin, -, hdone⟩ := inv.exits_of hpc
  have inv1 : Inv sys (s.setExit p (.adopted i note)) :=
    inv.setExit (.adopted i note) hths (by simp) (by simp) (by simp [hpc])
      (by simp [hpc])
  have inv2 : Inv sys ((s.setExit p (.adopted i note)).splice p i) := by
    refine inv1.splice (update_self ..) hlck hin fun c hc => ?_
    obtain ⟨hppid, hsn⟩ := hdone c hc (by simp)
    refine ⟨hppid, fun q hq hrun hz => ?_⟩
    have hqp : q ≠ p := by
      rintro rfl
      simp [World.setExit] at hrun
    rcases hsn q hq (by simpa [World.setExit, hqp] using hrun) (by simp) hz with hnote | hto
    · exact .inl hnote
    have hcp : c ≠ p := by
      rintro rfl
      simp [hpc] at hto
    exact .inr (by simpa [World.setExit, hcp] using hto)
  have hexits : ((s.setExit p (.adopted i note)).splice p i).exits p = .adopted i note := by
    cases i <;> exact update_self ..
  have hlk : ((s.setExit p (.adopted i note)).splice p i).lock = s.lock := by cases i <;> rfl
  refine inv2.setLocks (fun q hq => ?_) none
  simp [Idle, hlk, hlck q hq, hexits]

theorem exit (inv : Inv sys s) (h : s.exit sys p = some s') : Inv sys s' := by
  unfold World.exit at h
  split at h
  case h_1 | h_2 | h_3 => cases h
  case h_4 hpc =>
    cases h
    refine (inv.setExit .dead (inv.exits_of hpc).1 ?_ ?_ ?_ ?_).setZombie ?_
    all_goals simp [hpc, World.setExit]
  case h_5 hpc =>
    cases h
    have hat := inv.exits_of hpc
    refine inv.setExit _ hat (by simp) (by simp) (fun q hq hppid _ => .inr (.inl ?_))
      (by simp [hpc])
    simp [processLocate, hppid, (inv.exits_of hq).1]
  case h_6 hpc =>
    cases h
    have hat := inv.exits_of hpc
    exact inv.setExit .notified hat (by simp) (by simp) (by simp [hpc]) (by simp [hpc])
  case h_7 q hpc =>
    obtain ⟨hfree, rfl⟩ := of_guard h
    refine inv.trigger.setExit .notified (inv.exits_of hpc) (by simp) (by simp) ?_ ?_
    · rintro r - - (hde | hto)
      · cases hpc.symm.trans hde
      · cases hpc.symm.trans hto
        exact .inr (.inr ⟨hfree, by simp [Event.trigger_listeners]⟩)
    · intro r hr
      cases hpc.symm.trans hr
  case h_8 hpc =>
    obtain ⟨hfree, rfl⟩ := of_guard h
    exact inv.startAdopting hpc hfree
  case h_9 i c todo note hpc =>
    cases h
    exact inv.checkFlags hpc
  case h_10 i c todo note hpc =>
    cases h
    exact inv.storePpid hpc
  case h_11 i note hpc =>
    cases h
    exact inv.handOver hpc
  case h_12 i hpc =>
    cases h
    refine inv.trigger.setExit .gone (inv.exits_of hpc) (by simp) (by simp) ?_ ?_
    · simp [hpc]
    intro q hq
    cases hpc.symm.trans hq
    simp [Event.trigger_listeners]
  case h_13 i note hnot hpc =>
    cases h
    have hat := inv.exits_of hpc
    refine inv.setExit .gone hat (by simp) (by simp) (by simp [hpc]) ?_
    intro q hq
    cases hpc.symm.trans hq
    exact absurd rfl (hnot q rfl)

variable {sel : Selector P G}

theorem leaveScan [DecidableEq T] (inv : Inv sys s) (pc : WaitPc P G)
    (hpc : s.waits t = .scanning sel todo m) (hat : WaitAt sys s t pc)
    (hout : ∀ sel todo m, pc ≠ .scanning sel todo m) (htgt : pc.target = none) :
    Inv sys ((s.setWait t pc).setLock (sys.process t) none) := by
  refine (inv.setWait pc hat (by rw [hpc, htgt]; rfl)).setLock ?_ none
  simpa [(inv.waits_of hpc).2.1, Idle] using hout

theorem scanNext [DecidableEq T] (inv : Inv sys s) (hpc : s.waits t = .scanning sel (c :: todo) m)
    (hnot : ¬Claimable sys s sel c) : Inv sys (s.setWait t (.scanning sel todo m')) := by
  obtain ⟨halv, hlk, hsn⟩ := inv.waits_of hpc
  refine inv.setWait _ ⟨halv, hlk, fun d hd hn h => hsn d hd ?_ h⟩ (by simp [hpc])
  intro hmem
  rcases List.mem_cons.mp hmem with rfl | htd
  · exact hnot h
  · exact hn htd

theorem wait [DecidableEq T] (inv : Inv sys s) (h : s.wait sys t ok = some s') : Inv sys s' := by
  simp only [World.wait] at h
  split at h
  case h_1 => cases h
  case h_2 sel hpc =>
    obtain ⟨hfree, rfl⟩ := of_guard h
    refine (inv.setLock (by simp [Idle, hfree]) _).setWait _ ⟨inv.waits_of hpc, ?_, ?_⟩ ?_
    · simp [World.setLock]
    · exact fun c hc hn => absurd hc hn
    · simp [World.setLock, hpc]
  case h_3 sel c todo m hpc =>
    split at h
    case isTrue hsk =>
      cases h
      refine inv.scanNext hpc fun h => ?_
      exact hsk.elim (by simp [h.2.1]) fun hno => hno h.2.2
    rename_i htk
    obtain ⟨hunc, hsel⟩ : s.collected c = false ∧ waitMatches sys c sel = true := by
      simpa using htk
    split at h
    case isTrue hz =>
      cases h
      refine (inv.claim hz hunc hpc).setLock ?_ none
      simp [World.claim, (inv.waits_of hpc).2.1, Idle]
    case isFalse hz =>
      cases h
      exact inv.scanNext hpc fun h => hz h.1
  case h_4 sel hpc =>
    have halv : t ∈ s.threads (sys.process t) := inv.alive (by simp [hpc])
    split at h
    case h_1 e he =>
      cases h
      obtain ⟨-, rfl⟩ := Event.await_cases he
      refine (inv.setEvent ?_).leaveScan (.starting sel) hpc halv (by simp) rfl
      exact fun u hu => .inl hu
    split at h
    case isTrue =>
      cases h
      refine (inv.setEvent fun u hu => ?_).leaveScan (.asleep sel) hpc ⟨halv, ?_⟩ (by simp) rfl
      · rcases Event.mem_listen.mp hu with hold | rfl
        · exact .inl hold
        · exact .inr (by simp [hpc])
      · exact fun _ c hc h => .inl ((inv.waits_of hpc).2.2 c hc (by simp) h)
    case isFalse =>
      cases h
      exact inv.leaveScan _ hpc trivial (by simp) rfl
  case h_5 sel hpc =>
    cases h
    exact inv.leaveScan _ hpc trivial (by simp) rfl
  case h_6 sel hpc =>
    obtain ⟨-, ⟨⟩⟩ := ite_none_left_eq_some.mp h
    exact inv.setWait (.starting sel) (inv.alive (by simp [hpc])) (by simp [hpc])
  case h_7 c hpc =>
    cases h
    obtain ⟨halv, hz⟩ := inv.waits_of hpc
    exact (inv.setListed (.inr hz)).setWait _ halv (by simp [hpc])
  case h_8 hpc =>
    cases h
    exact inv.collect hpc
  case h_9 c q r hpc =>
    obtain ⟨hfree, rfl⟩ := of_guard h
    exact (inv.unlink hfree).collect hpc

theorem interrupt [DecidableEq T] (inv : Inv sys s) (h : s.interrupt sys t = some s') :
    Inv sys s' := by
  unfold World.interrupt at h
  split at h
  case h_1 sel hpc =>
    obtain ⟨-, rfl⟩ := of_guard h
    refine (inv.setWait (.out _) trivial (by simp [hpc])).setEvent fun u hu => .inl ?_
    exact (List.mem_filter.mp hu).1
  case h_2 => cases h

theorem fork (inv : Inv sys s) (h : s.fork sys p c t = some s') : Inv sys s' := by
  obtain ⟨⟨hths, hunb, hfree, hproc⟩, rfl⟩ := of_guard h
  obtain ⟨hnothreads, hlive, hnokids, hnokid⟩ := inv.exits_of hunb
  obtain ⟨u, hu⟩ := List.exists_mem_of_ne_nil _ hths
  have hrun := inv.running hu
  have hpc : p ≠ c := by
    rintro rfl
    cases hrun.symm.trans hunb
  have inv1 : Inv sys ((s.setListed c true).setPpid c (some p)) :=
    (inv.setListed (.inl rfl)).setPpid fun q hq => absurd hq (hnokid q)
  have inv2 : Inv sys (((s.setListed c true).setPpid c (some p)).setExit c .running) := by
    refine inv1.setExit _ ⟨?_, hlive, ?_⟩ (by simp) (fun _ => hunb) ?_ ?_
    · simp
    · exact fun d hd => absurd hd (hnokids d)
    · simp [hunb]
    · simp [hunb]
  have inv3 := inv2.setThreads (p := c) [t] (by simp [World.setExit]) fun u hu => by
    have hu : u ∈ s.threads c := hu
    simp [hnothreads] at hu
  have hmem : ∀ {q d}, d ∈ update s.children p (c :: s.children p) q →
      d ∈ s.children q ∨ q = p ∧ d = c := by
    intro q d hd
    by_cases hq : q = p
    · subst hq
      have hd : d = c ∨ d ∈ s.children q := by simpa using hd
      exact hd.symm.imp_right fun h => ⟨rfl, h⟩
    · exact .inl (by simpa [hq] using hd)
  refine inv3.setKids ?_ ?_ ?_ ?_
  · intro q i child todo note hq
    refine update_of_ne (?_ : q ≠ p) ..
    rintro rfl
    cases (hrun.symm.trans (update_of_ne hpc ..).symm).trans hq
  · intro u sel todo m hu d hd
    refine (hmem hd).resolve_right fun hpd => ?_
    cases hfree.symm.trans (hpd.1 ▸ (inv.waits_of hu).2.1)
  · intro q d hd
    refine (hmem hd).imp_right ?_
    rintro ⟨rfl, rfl⟩
    refine ⟨?_, ?_, fun _ => ⟨?_, fun hz => ?_⟩⟩
    · simp [World.setExit, hpc, hrun]
    · simp [World.setExit]
    · simp [World.setExit]
    · cases hlive.symm.trans hz
  · intro q r d hq hr
    rcases hmem hq with hold | ⟨hqp, hd⟩ <;> rcases hmem hr with hold' | ⟨hrp, hd'⟩
    · exact inv.only q r d hold hold'
    · exact absurd (hd' ▸ hold) (hnokid q)
    · exact absurd (hd ▸ hold') (hnokid r)
    · exact hqp.trans hrp.symm

theorem spawn (inv : Inv sys s) [DecidableEq T] (h : s.spawn sys t = some s') : Inv sys s' := by
  obtain ⟨⟨hths, -⟩, rfl⟩ := of_guard h
  obtain ⟨u, hu⟩ := List.exists_mem_of_ne_nil _ hths
  exact inv.setThreads _ (inv.running hu) fun v hv => .inl (by simp [hv])

theorem reap (inv : Inv sys s) [DecidableEq T] (h : s.reap sys t = some s') : Inv sys s' := by
  simp only [World.reap] at h
  split at h
  case h_2 => cases h
  rename_i r hout
  obtain ⟨ht, h⟩ := ite_none_right_eq_some.mp h
  have hrun := inv.running ht
  have inv' : Inv sys (s.setThreads (sys.process t)
      ((s.threads (sys.process t)).filter (· ≠ t))) := by
    refine inv.setThreads _ hrun fun u hu => ?_
    by_cases hut : u = t
    · exact .inr ⟨r, hut ▸ hout⟩
    · exact .inl (by simp [hu, hut])
  split at h
  case isTrue hlast =>
    cases h
    refine inv'.setExit _ ⟨?_, (inv'.exits_of hrun).2.1⟩ (by simp) (by simp) ?_ ?_
    · exact (update_self ..).trans hlast
    · simp [hrun]
    · simp [hrun]
  case isFalse =>
    cases h
    exact inv'

theorem waitpid (inv : Inv sys s) [DecidableEq T] (h : s.waitpid sys t sel = some s') :
    Inv sys s' := by
  unfold World.waitpid at h
  split at h
  case h_1 hpc =>
    obtain ⟨ht, rfl⟩ := of_guard h
    exact inv.setWait (.starting sel) ht (by simp [hpc])
  case h_2 => cases h

theorem step [DecidableEq T] (inv : Inv sys s) (h : s.step sys a = some s') : Inv sys s' := by
  cases a with
  | fork p c t => exact inv.fork h
  | spawn t => exact inv.spawn h
  | reap t => exact inv.reap h
  | exit p => exact inv.exit h
  | waitpid t sel => exact inv.waitpid h
  | wait t ok => exact inv.wait h
  | interrupt t => exact inv.interrupt h

end Inv

/-! ## Results -/

end Vex.Proc.Wait
