import Vex.Proc.Wait

/-! What each exit and each thread in `wait_child` knows at its place, and that every update a step
is made of keeps it so. -/

namespace Vex.Proc.Wait

open Function World

attribute [local simp] World.setExit World.setZombie World.start World.setThreads

variable {P T G : Type} [DecidableEq P] [DecidableEq G]

/-- The exit of `c` has set the zombie flag and is still to trigger the event of `p`. -/
def Notifies (s : World P T G) (c p : P) : Prop :=
  s.exits c = .dead ∨ s.exits c = .notifying (some p)

/-- A trigger of the event of `p` is still to come for the zombies it adopted. -/
def Adopts (s : World P T G) (p : P) : Prop := ∃ q, s.exits q = .adopted (some p) true

/-- A zombie that a thread waiting with `sel` would claim. -/
def Claimable (sys : System P T G) (s : World P T G) (sel : Selector P G) (c : P) : Prop :=
  s.zombie c = true ∧ s.collected c = false ∧ waitMatches sys c sel = true

/-- What holds at a place of the exit of `p`. -/
def ExitAt (sys : System P T G) (s : World P T G) (p : P) : ExitPc P → Prop
  | .unborn =>
    s.threads p = [] ∧ s.zombie p = false ∧ (∀ c, c ∉ s.children p) ∧ ∀ q, p ∉ s.children q
  | .running => s.listed p = true ∧ s.zombie p = false ∧ ∀ c ∈ s.children p, s.ppid c = some p
  | .last => s.threads p = [] ∧ s.zombie p = false
  | .adopting adopter child todo note =>
    s.threads p = [] ∧ (∀ q ∈ locks p adopter, s.lock q = some (.exit p)) ∧
      (∀ q ∈ adopter, q = sys.init) ∧ (∀ c ∈ todo, c ∈ s.children p) ∧
      ∀ c ∈ s.children p, c ∉ todo → s.ppid c = adopter ∧
        ∀ q ∈ adopter, s.exits q = .running → child ≠ some c → s.zombie c → note ∨ Notifies s c q
  | _ => s.threads p = []

/-- What holds at a place of the thread `t`. -/
def WaitAt (sys : System P T G) (s : World P T G) (t : T) : WaitPc P G → Prop
  | .out _ => True
  | .scanning sel todo _ =>
    t ∈ s.threads (sys.process t) ∧ s.lock (sys.process t) = some (.thread t) ∧
      ∀ c ∈ s.children (sys.process t), c ∉ todo → Claimable sys s sel c →
        Notifies s c (sys.process t)
  | .asleep sel =>
    t ∈ s.threads (sys.process t) ∧
      (t ∈ (s.childExited (sys.process t)).listeners →
        ∀ c ∈ s.children (sys.process t), Claimable sys s sel c →
          Notifies s c (sys.process t) ∨ Adopts s (sys.process t))
  | .collecting c => t ∈ s.threads (sys.process t) ∧ s.zombie c = true
  | _ => t ∈ s.threads (sys.process t)

/-- A process that is claimed is with one call, which is under way or has returned. -/
structure Once (collected : P → Bool) (results : P → List (Except Errno P))
    (target : T → Option P) : Prop where
  held : ∀ {t c}, target t = some c → collected c = true ∧ results c = []
  alone : ∀ {t u c}, target t = some c → target u = some c → t = u
  taken : ∀ {c}, collected c = true → results c = [] → ∃ t, target t = some c
  ended : ∀ {c}, results c ≠ [] →
    collected c = true ∧ ∃ copied, results c = [collectResult c copied]

structure Inv (sys : System P T G) (s : World P T G) : Prop where
  init : s.exits sys.init ≠ .unborn
  exits : ∀ p, ExitAt sys s p (s.exits p)
  waits : ∀ t, WaitAt sys s t (s.waits t)
  /-- A process is on the list of one parent at most. -/
  only : ∀ p q c, c ∈ s.children p → c ∈ s.children q → p = q
  collected : ∀ p, s.collected p = true → s.zombie p = true
  once : Once s.collected s.results (WaitPc.target ∘ s.waits)

namespace Inv

variable {sys : System P T G} {s s' : World P T G} {p q c : P} {t : T}

theorem start (t : T) : Inv sys (World.start sys t) where
  init := by simp
  exits := by
    intro p
    by_cases h : p = sys.init
    · simp [h, ExitAt]
    · simp [h, ExitAt]
  waits := fun _ => trivial
  only := by simp
  collected := by simp
  once := by constructor <;> simp

theorem alive (inv : Inv sys s) (h : ∀ r, s.waits t ≠ .out r) : t ∈ s.threads (sys.process t) := by
  have hat := inv.waits t
  generalize s.waits t = place at hat h
  cases place with
  | out r => exact absurd rfl (h r)
  | starting | unlinking => exact hat
  | scanning | asleep | collecting => exact hat.1

theorem running (inv : Inv sys s) (h : t ∈ s.threads p) : s.exits p = .running := by
  have hat := inv.exits p
  have hne : s.threads p ≠ [] := List.ne_nil_of_mem h
  generalize s.exits p = place at hat ⊢
  cases place with
  | running => rfl
  | unborn | last | adopting => exact absurd hat.1 hne
  | dead | notifying | notified | adopted | gone => exact absurd hat hne

theorem exits_of (inv : Inv sys s) (hpc : s.exits p = pc) : ExitAt sys s p pc := hpc ▸ inv.exits p

theorem waits_of (inv : Inv sys s) (hpc : s.waits t = pc) : WaitAt sys s t pc := hpc ▸ inv.waits t

theorem ppid (inv : Inv sys s) (hp : s.exits p = .running) (hc : c ∈ s.children p) :
    s.ppid c = some p :=
  (inv.exits_of hp).2.2 c hc

/-! ### Updates -/

theorem waitAt (inv : Inv sys s)
    (h : ∀ pc, s.waits t = pc → WaitAt sys s t pc → WaitAt sys s' t pc) :
    WaitAt sys s' t (s.waits t) := h _ rfl (inv.waits t)

theorem exitAt (inv : Inv sys s)
    (h : ∀ pc, s.exits p = pc → ExitAt sys s p pc → ExitAt sys s' p pc) :
    ExitAt sys s' p (s.exits p) := h _ rfl (inv.exits p)

theorem waits_update [DecidableEq T] (inv : Inv sys s) (h : WaitAt sys s t x) (u : T) :
    WaitAt sys s u (update s.waits t x u) := by
  rcases eq_or_ne u t with rfl | hu
  · rwa [update_self]
  · rw [update_of_ne hu]
    exact inv.waits u

theorem setWait [DecidableEq T] (inv : Inv sys s) (pc : WaitPc P G) (h : WaitAt sys s t pc)
    (htgt : pc.target = (s.waits t).target) : Inv sys (s.setWait t pc) where
  __ := inv
  waits := inv.waits_update h
  once := by
    have hsame : WaitPc.target ∘ update s.waits t pc = WaitPc.target ∘ s.waits := by
      rw [comp_update, htgt]
      exact update_eq_self t _
    simpa only [World.setWait, hsame] using inv.once

theorem collect [DecidableEq T] (inv : Inv sys s) (hpc : s.waits t = .unlinking c parent copied) :
    Inv sys (s.collect t c copied) where
  __ := inv
  waits := inv.waits_update (x := .out _) trivial
  once := by
    obtain ⟨held, alone, taken, ended⟩ := inv.once
    simp only [World.collect, World.setWait, comp_update]
    constructor <;> simp only [update_apply] <;> grind [WaitPc.target]

theorem setEvent (inv : Inv sys s)
    (h : ∀ u ∈ e.listeners, u ∈ (s.childExited p).listeners ∨ ∀ sel, s.waits u ≠ .asleep sel) :
    Inv sys (s.setEvent p e) where
  __ := inv
  waits u := by
    refine inv.waitAt fun place hpc hat => ?_
    cases place with
    | asleep sel =>
      refine ⟨hat.1, fun hu => hat.2 ?_⟩
      by_cases hp : sys.process u = p
      · have hu' : u ∈ e.listeners := by simpa [World.setEvent, hp] using hu
        rcases h u hu' with hold | hnot
        · rwa [hp]
        · exact absurd hpc (hnot sel)
      · simpa [World.setEvent, hp] using hu
    | _ => exact hat

theorem trigger (inv : Inv sys s) : Inv sys (s.trigger p) :=
  inv.setEvent (by simp [Event.trigger_listeners])

/-- The holder of a lock is not where it relies on it, or there is none. -/
def Idle (s : World P T G) : Option (Holder P T) → Prop
  | none => True
  | some (.exit q) => ∀ i child todo note, s.exits q ≠ .adopting i child todo note
  | some (.thread t) => ∀ sel todo m, s.waits t ≠ .scanning sel todo m

section
variable (inv : Inv sys s)
include inv

theorem setLocks (hid : ∀ p ∈ ps, Idle s (s.lock p)) (h : Option (Holder P T)) :
    Inv sys (s.setLocks ps h) where
  __ := inv
  exits q := by
    refine inv.exitAt fun place hpc hat => ?_
    cases place with
    | adopting i child todo note =>
      refine ⟨hat.1, fun r hr => ?_, hat.2.2⟩
      have hlk := hat.2.1 r hr
      have hnot : r ∉ ps := by
        intro hr
        have hid := hid r hr
        rw [hlk] at hid
        exact hid i child todo note hpc
      simpa [World.setLocks, hnot] using hlk
    | _ => exact hat
  waits t := by
    refine inv.waitAt fun place hpc hat => ?_
    cases place with
    | scanning sel todo m =>
      obtain ⟨halv, hlk, hsn⟩ := hat
      have hnot : sys.process t ∉ ps := by
        intro ht
        have hid := hid _ ht
        rw [hlk] at hid
        exact hid sel todo m hpc
      exact ⟨halv, by simpa [World.setLocks, hnot] using hlk, hsn⟩
    | _ => exact hat

theorem setLock (hid : Idle s (s.lock p)) (h : Option (Holder P T)) :
    Inv sys (s.setLock p h) :=
  inv.setLocks (by simpa using hid) h

theorem claim [DecidableEq T] (hz : s.zombie c = true) (hc : s.collected c = false)
    (hpc : s.waits t = .scanning sel todo m) : Inv sys (s.claim t c) where
  __ := inv
  waits u := by
    have hclm : ∀ {sel d}, Claimable sys (s.claim t c) sel d → Claimable sys s sel d := by
      rintro sel d ⟨hz, hu, hs⟩
      refine ⟨hz, ?_, hs⟩
      by_cases hd : d = c
      · exact hd ▸ hc
      · simpa [World.claim, hd] using hu
    have hat := inv.waits_update (t := t) (x := .collecting c) ⟨inv.alive (by simp [hpc]), hz⟩ u
    change WaitAt sys (s.claim t c) u (update s.waits t (.collecting c) u)
    generalize update s.waits t (.collecting c) u = place at hat ⊢
    cases place with
    | scanning sel todo m =>
      exact ⟨hat.1, hat.2.1, fun d hd hn h => hat.2.2 d hd hn (hclm h)⟩
    | asleep sel =>
      exact ⟨hat.1, fun hu d hd h => hat.2 hu d hd (hclm h)⟩
    | _ => exact hat
  collected := by
    intro d hd
    by_cases h : d = c
    · exact h ▸ hz
    · exact inv.collected d (by simpa [World.claim, h] using hd)
  once := by
    obtain ⟨held, alone, taken, ended⟩ := inv.once
    simp only [World.claim, World.setWait, comp_update]
    constructor <;> simp only [update_apply] <;> grind [WaitPc.target]

theorem setListed (h : b = true ∨ s.zombie c = true) : Inv sys (s.setListed c b) where
  __ := inv
  exits q := by
    refine inv.exitAt fun place hpc hat => ?_
    cases place with
    | running =>
      refine ⟨?_, hat.2⟩
      by_cases hq : q = c
      · subst hq
        simpa [World.setListed, hat.2.1] using h
      · simpa [World.setListed, hq] using hat.1
    | _ => exact hat

theorem setThreads (ts : List T) (hp : s.exits p = .running)
    (h : ∀ u ∈ s.threads p, u ∈ ts ∨ ∃ r, s.waits u = .out r) :
    Inv sys (s.setThreads p ts) where
  __ := inv
  exits q := by
    have hoth : s.exits q ≠ .running → (s.setThreads p ts).threads q = s.threads q := by
      intro hq
      have hne : q ≠ p := fun h => hq (h ▸ hp)
      simp [hne]
    refine inv.exitAt fun place hpc hat => ?_
    cases place with
    | running =>
      exact hat
    | unborn | last | adopting =>
      exact ⟨(hoth (by simp [hpc])).trans hat.1, hat.2⟩
    | dead | notifying | notified | adopted | gone =>
      exact (hoth (by simp [hpc])).trans hat
  waits u := by
    have halv : (∀ r, s.waits u ≠ .out r) →
        u ∈ (s.setThreads p ts).threads (sys.process u) := by
      intro hin
      have hu := inv.alive hin
      by_cases hp : sys.process u = p
      · rcases h u (hp ▸ hu) with hts | ⟨r, hr⟩
        · simpa [hp] using hts
        · exact absurd hr (hin r)
      · simpa [hp] using hu
    refine inv.waitAt fun place hpc hat => ?_
    cases place with
    | out => trivial
    | starting | unlinking => exact halv (by simp [hpc])
    | scanning | asleep | collecting =>
      exact ⟨halv (by simp [hpc]), hat.2⟩

/-- The parent's number of a child is stored that nobody running has and no adoption is past. -/
theorem setPpid (h : ∀ q, c ∈ s.children q → s.exits q ≠ .running ∧
      ∀ j child todo note, s.exits q = .adopting j child todo note → c ∈ todo) :
    Inv sys (s.setPpid c i) where
  __ := inv
  exits q := by
    refine inv.exitAt fun place hpc hat => ?_
    cases place with
    | running =>
      refine ⟨hat.1, hat.2.1, fun d hd => ?_⟩
      have hne : d ≠ c := by
        rintro rfl
        exact (h q hd).1 hpc
      simpa [World.setPpid, hne] using hat.2.2 d hd
    | adopting j child todo note =>
      obtain ⟨hths, hlck, hin, htd, hdone⟩ := hat
      refine ⟨hths, hlck, hin, htd, fun d hd hn => ?_⟩
      have hne : d ≠ c := by
        rintro rfl
        exact hn ((h q hd).2 j child todo note hpc)
      exact ⟨by simpa [World.setPpid, hne] using (hdone d hd hn).1, (hdone d hd hn).2⟩
    | _ => exact hat

theorem setZombie (hp : s.exits p = .dead) : Inv sys (s.setZombie p) where
  __ := inv
  exits q := by
    have hoth : s.exits q ≠ .dead → (s.setZombie p).zombie q = s.zombie q := by
      intro hq
      have hne : q ≠ p := fun h => hq (h ▸ hp)
      simp [hne]
    refine inv.exitAt fun place hpc hat => ?_
    cases place with
    | unborn | running =>
      exact ⟨hat.1, (hoth (by simp [hpc])).trans hat.2.1, hat.2.2⟩
    | last =>
      exact ⟨hat.1, (hoth (by simp [hpc])).trans hat.2⟩
    | adopting i child todo note =>
      obtain ⟨hths, hlck, hin, htd, hdone⟩ := hat
      refine ⟨hths, hlck, hin, htd, fun d hd hn => ⟨(hdone d hd hn).1, ?_⟩⟩
      intro r hr hrun hch hz
      by_cases hd' : d = p
      · exact .inr (.inl (hd' ▸ hp))
      · exact (hdone d hd hn).2 r hr hrun hch (by simpa [hd'] using hz)
    | _ => exact hat
  waits t := by
    have hclm : ∀ {sel c}, Claimable sys (s.setZombie p) sel c →
        s.exits c = .dead ∨ Claimable sys s sel c := by
      rintro sel c ⟨hz, hu, hs⟩
      by_cases hc : c = p
      · exact .inl (hc ▸ hp)
      · exact .inr ⟨by simpa [hc] using hz, hu, hs⟩
    refine inv.waitAt fun place hpc hat => ?_
    cases place with
    | scanning sel todo m =>
      refine ⟨hat.1, hat.2.1, fun c hc hn h => ?_⟩
      exact (hclm h).elim .inl fun h => hat.2.2 c hc hn h
    | asleep sel =>
      refine ⟨hat.1, fun hu c hc h => ?_⟩
      exact (hclm h).elim (fun h => .inl (.inl h)) fun h => hat.2 hu c hc h
    | collecting c =>
      refine ⟨hat.1, ?_⟩
      simp [update_apply, hat.2, ite_self]
    | _ => exact hat
  collected := by
    intro q hq
    simp [update_apply, inv.collected q hq, ite_self]

/-- The lists of children change, but for those somebody is going over: a new child of a running
process has its number, and is no zombie nobody will tell it of. -/
theorem setKids
    (hadopt : ∀ q i child todo note, s.exits q = .adopting i child todo note → f q = s.children q)
    (hscan : ∀ t sel todo m, s.waits t = .scanning sel todo m →
      ∀ c ∈ f (sys.process t), c ∈ s.children (sys.process t))
    (hnew : ∀ q, ∀ c ∈ f q, c ∈ s.children q ∨ s.exits q ≠ .unborn ∧ s.exits c ≠ .unborn ∧
      (s.exits q = .running → s.ppid c = some q ∧
        (s.zombie c = true → Notifies s c q ∨ Adopts s q)))
    (honly : ∀ p q c, c ∈ f p → c ∈ f q → p = q) : Inv sys { s with children := f } where
  __ := inv
  exits q := by
    refine inv.exitAt fun place hpc hat => ?_
    cases place with
    | unborn =>
      refine ⟨hat.1, hat.2.1, fun c hc => ?_, fun r hr => ?_⟩
      · exact (hnew q c hc).elim (hat.2.2.1 c) fun h => h.1 hpc
      · exact (hnew r q hr).elim (hat.2.2.2 r) fun h => h.2.1 hpc
    | running =>
      refine ⟨hat.1, hat.2.1, fun c hc => ?_⟩
      exact (hnew q c hc).elim (hat.2.2 c) fun h => (h.2.2 hpc).1
    | adopting i child todo note =>
      obtain ⟨hths, hlck, hin, htd, hdone⟩ := hat
      rw [← hadopt q i child todo note hpc] at htd hdone
      exact ⟨hths, hlck, hin, htd, hdone⟩
    | _ => exact hat
  waits t := by
    refine inv.waitAt fun place hpc hat => ?_
    cases place with
    | scanning sel todo m =>
      exact ⟨hat.1, hat.2.1, fun c hc => hat.2.2 c (hscan t sel todo m hpc c hc)⟩
    | asleep sel =>
      refine ⟨hat.1, fun hu c hc h => ?_⟩
      rcases hnew _ c hc with hold | ⟨-, -, hrun⟩
      · exact hat.2 hu c hold h
      · exact (hrun (inv.running hat.1)).2 h.1
    | _ => exact hat
  only := honly

/-- An exit goes on. Whoever relies on it to tell the parent can rely on the new place too, or
nobody does: the parent's lock is free and no thread listens. -/
theorem setExit (pc : ExitPc P) (hat : ExitAt sys s p pc) (hborn : pc ≠ .unborn)
    (hrun : pc = .running → s.exits p = .unborn)
    (hkeep : ∀ q, s.exits q = .running → s.ppid p = some q → Notifies s p q →
      pc = .dead ∨ pc = .notifying (some q) ∨
        s.lock q = none ∧ (s.childExited q).listeners = [])
    (hadopted : ∀ q, s.exits p = .adopted (some q) true → (s.childExited q).listeners = []) :
    Inv sys (s.setExit p pc) := by
  have hnot : ∀ {c q}, s.exits q = .running → s.ppid c = some q → Notifies s c q →
      Notifies (s.setExit p pc) c q ∨ s.lock q = none ∧ (s.childExited q).listeners = [] := by
    intro c q hq hc h
    by_cases hcp : c = p
    · subst hcp
      rcases hkeep q hq hc h with hpc | hpc | hnone
      · exact .inl (.inl (by simp [hpc]))
      · exact .inl (.inr (by simp [hpc]))
      · exact .inr hnone
    · exact .inl (by simpa [Notifies, hcp] using h)
  have hxt : ∀ {q pc'}, ExitAt sys s q pc' → ExitAt sys (s.setExit p pc) q pc' := by
    intro q pc' hat'
    cases pc' with
    | adopting i child todo note =>
      obtain ⟨hths, hlck, hin, htd, hdone⟩ := hat'
      refine ⟨hths, hlck, hin, htd, fun c hc hn => ⟨(hdone c hc hn).1, ?_⟩⟩
      intro r hr hrrun hch hz
      have hrun' : s.exits r = .running := by
        by_cases hrp : r = p
        · subst hrp
          have hpc : pc = .running := by simpa using hrrun
          exact absurd (hin r hr ▸ hrun hpc) inv.init
        · simpa [hrp] using hrrun
      rcases (hdone c hc hn).2 r hr hrun' hch hz with hnote | hto
      · exact .inl hnote
      · refine .inr ((hnot hrun' ((hdone c hc hn).1.trans hr) hto).resolve_right ?_)
        simp [hlck r (by simp [locks, Option.mem_def.mp hr])]
    | unborn | running | last | dead | notifying | notified | adopted | gone => exact hat'
  refine ⟨?_, fun q => ?_, fun t => ?_, inv.only, inv.collected, inv.once⟩
  · by_cases hp : sys.init = p
    · simpa [hp] using hborn
    · simpa [hp] using inv.init
  · rcases eq_or_ne q p with rfl | hq
    · rw [show (s.setExit q pc).exits q = pc from update_self ..]
      exact hxt hat
    · rw [show (s.setExit p pc).exits q = s.exits q from update_of_ne hq ..]
      exact hxt (inv.exits q)
  · have hat' := inv.waits t
    change WaitAt sys (s.setExit p pc) t (s.waits t)
    generalize hpc : s.waits t = place at hat' ⊢
    cases place with
    | scanning sel todo m =>
      refine ⟨hat'.1, hat'.2.1, fun c hc hn h => ?_⟩
      have hrun := inv.running hat'.1
      have hppid := inv.ppid hrun hc
      refine (hnot hrun hppid (hat'.2.2 c hc hn h)).resolve_right ?_
      simp [hat'.2.1]
    | asleep sel =>
      refine ⟨hat'.1, fun hu c hc h => ?_⟩
      have hrun := inv.running hat'.1
      have hppid := inv.ppid hrun hc
      rcases hat'.2 hu c hc h with hto | ⟨q, hq⟩
      · refine .inl ((hnot hrun hppid hto).resolve_right fun hnone => ?_)
        exact List.ne_nil_of_mem hu hnone.2
      have hne : q ≠ p := by
        rintro rfl
        exact List.ne_nil_of_mem hu (hadopted _ hq)
      exact .inr ⟨q, (update_of_ne hne ..).trans hq⟩
    | _ => exact hat'

theorem unlink (hfree : s.lock q = none) :
    Inv sys (s.setChildren q ((s.children q).erase c)) := by
  have hsub : ∀ {r d}, d ∈ update s.children q ((s.children q).erase c) r →
      d ∈ s.children r := by
    intro r d hd
    by_cases hr : r = q
    · subst hr
      exact List.mem_of_mem_erase (by simpa using hd)
    · simpa [hr] using hd
  refine inv.setKids ?_ (fun t sel todo m _ d hd => hsub hd) (fun r d hd => .inl (hsub hd))
    fun r r' d hr hr' => inv.only r r' d (hsub hr) (hsub hr')
  intro r i child todo note hr
  have hne : r ≠ q := by
    rintro rfl
    cases hfree.symm.trans ((inv.exits_of hr).2.1 r (by simp [locks]))
  exact update_of_ne hne ..

end

end Inv

end Vex.Proc.Wait
