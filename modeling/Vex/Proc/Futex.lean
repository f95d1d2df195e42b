import Vex.Lib.Bytes
import Vex.Lib.Threads
import Vex.Mm.Kernel

/-! Futexes (`futex.c`) over the memory management, on any number of threads. A stretch under the
lock of a bucket or of an address space is one step; everything else user code and the kernel do to
memory may come between any two of them.

The stores to a word are counted, and for every frame the last of them that its word has got: the
frame that is mapped has all of them, one that was replaced those up to then. -/

namespace Vex.Proc.Futex

open Function Option

open Lib Mm

abbrev FUTEX_HASH_FACTOR : Nat := 0x9E3779B97F4A7C15

/-- A word: its address space and its address. -/
abbrev Key := Nat × Nat

def bucketOf (key : Key) : Nat := (key.1 ^^^ key.2) * FUTEX_HASH_FACTOR % 2 ^ 64 >>> 56

/-- `futex_waiter_t`. -/
structure Waiter (T : Type) where
  key : Key
  thread : T
  deriving DecidableEq, Repr

/-- Where a thread is. `seen` is the last store that its look at the word could see. -/
inductive Pc
  /-- In user code, with the result of the last call. -/
  | user (result : Option (Except Errno Unit))
  /-- `vms_pin` has found the frame. -/
  | pinned (key : Key) (expected frame : Nat)
  /-- On the list of waiters and off the run queue, but the frame is still pinned. -/
  | linked (key : Key) (frame seen : Nat)
  | asleep (key : Key) (seen : Nat)
  /-- Scheduled again. -/
  | resumed (key : Key) (seen : Nat)
  /-- On the way out with the frame still pinned. -/
  | unpinning (frame : Nat) (result : Except Errno Unit)
  /-- In user code after store number `index` to the word, and before the wake that goes with it. -/
  | stored (key : Key) (index : Nat)
  deriving DecidableEq

structure Shared (T : Type) where
  kernel : Kernel
  buckets : Nat → List (Waiter T)
  /-- On the run queue. -/
  runnable : T → Bool
  /-- How many stores there were to a word, and the last one whose wake is through. -/
  stores : Key → Nat
  announced : Key → Nat
  /-- The last store to a word that the frame has got. -/
  reached : Key → Nat → Nat

inductive Act
  /-- Anything else that is done to memory. -/
  | mem (op : Op)
  | wait (key : Key) (expected : Nat)
  /-- The look at the word under the bucket's lock. -/
  | check (expired : Bool)
  /-- The next step of `futex_wait`. -/
  | next
  /-- A deadline or a signal puts the thread on the run queue. -/
  | kick
  /-- The end of `futex_wait`, under the bucket's lock. -/
  | finish (pendingWork expired : Bool)
  /-- User code stores to a word that it will wake. -/
  | store (key : Key) (value : Nat)
  /-- `futex_wake` after the store. -/
  | wake (count : Nat)
  /-- `futex_wake` without a store. -/
  | wakeOnly (key : Key) (count : Nat)

/-- The frame that a word is mapped to. -/
def frameAt (k : Kernel) (key : Key) : Option Nat :=
  (k.pages.pmaps (key.1, pageAlign key.2)).map (·.frame)

/-- The word in a frame. -/
def wordAt (p : Pages) (f address : Nat) : Nat := le 4 (p.data f) (pageOffset address)

/-- The loop of `futex_wake`: who stays on the list, and who is put on the run queue. -/
def wakeLoop {T : Type} (key : Key) : Nat → List (Waiter T) → List (Waiter T) × List T
  | _, [] => ([], [])
  | count, w :: ws =>
    if 0 < count ∧ w.key = key then
      ((wakeLoop key (count - 1) ws).1, w.thread :: (wakeLoop key (count - 1) ws).2)
    else (w :: (wakeLoop key count ws).1, (wakeLoop key count ws).2)

variable {T : Type}

namespace Shared

variable (s : Shared T)

/-- Memory changes; the frames that are mapped now hold every store so far. -/
def setKernel (k : Kernel) : Shared T :=
  { s with
    kernel := k
    reached := fun key f => if frameAt k key = some f then s.stores key else s.reached key f }

def setPages (p : Pages) : Shared T := s.setKernel { s.kernel with pages := p }

def setBucket (b : Nat) (ws : List (Waiter T)) : Shared T :=
  { s with buckets := update s.buckets b ws }

/-- How many threads wait for the word. -/
def waiters (key : Key) : Nat := (s.buckets (bucketOf key)).countP (·.key = key)

variable [DecidableEq T]

def enqueue (t : T) : Shared T := { s with runnable := update s.runnable t true }

def dequeue (t : T) : Shared T := { s with runnable := update s.runnable t false }

def futexWake (key : Key) (count : Nat) : Shared T :=
  let r := wakeLoop key count (s.buckets (bucketOf key))
  { s.setBucket (bucketOf key) r.1 with runnable := fun t => s.runnable t || decide (t ∈ r.2) }

/-- The store before this wake is announced to everyone, if the count is enough for all. -/
def announce (key : Key) (count index : Nat) : Shared T :=
  if s.waiters key ≤ count then
    { s with announced := update s.announced key (max (s.announced key) index) }
  else s

end Shared

variable [DecidableEq T] (files : Files) (fuel : Nat)

/-- `futex_wait` up to the pin. -/
def futexWait (s : Shared T) (key : Key) (expected : Nat) : Option (Shared T × Pc) :=
  if key.2 % 4 ≠ 0 then some (s, .user (some (.error .EINVAL)))
  else (s.kernel.spaces key.1).map fun regions =>
    match vmsPin files fuel s.kernel.userEnd s.kernel.pages key.1 regions key.2 with
    | (none, p) => (s.setPages p, .user (some (.error .EFAULT)))
    | (some f, p) => (s.setPages p, .pinned key expected f)

/-- An aligned word is stored through a mapping that can be written; otherwise it faults first. -/
def storeWord (s : Shared T) (key : Key) (value : Nat) : Option (Shared T × Pc) :=
  if key.2 % 4 ≠ 0 then none
  else ((s.kernel.pages.pmaps (key.1, pageAlign key.2)).filter (Vprot.writes ·.vprot)).map
    fun entry =>
      let p := s.kernel.pages
      let bytes := (List.range 4).map (digits value)
      ({ s with stores := update s.stores key (s.stores key + 1) }.setPages
        (writeFrame p entry.frame (pageOffset key.2) bytes), .stored key (s.stores key + 1))

/-- What `futex_wait` returns to a thread that no wake found. -/
def unwoken (pendingWork expired : Bool) : Except Errno Unit :=
  if pendingWork then .error .EINTR else if expired then .error .ETIMEDOUT else .ok ()

def step (t : T) (s : Shared T) : Pc → Act → Option (Shared T × Pc)
  | .user r, .mem op => (s.kernel.step files fuel op).map fun out => (s.setKernel out.2, .user r)
  | .stored key i, .mem op =>
    (s.kernel.step files fuel op).map fun out => (s.setKernel out.2, .stored key i)
  | .user _, .wait key expected => futexWait files fuel s key expected
  | .pinned key expected f, .check expired =>
    if wordAt s.kernel.pages f key.2 ≠ expected then some (s, .unpinning f (.error .EAGAIN))
    else if expired then some (s, .unpinning f (.error .ETIMEDOUT))
    else some ((s.setBucket (bucketOf key) (s.buckets (bucketOf key) ++ [⟨key, t⟩])).dequeue t,
      .linked key f (s.reached key f))
  | .linked key f seen, .next => some (s.setPages (vmsUnpin s.kernel.pages f), .asleep key seen)
  | .unpinning f r, .next => some (s.setPages (vmsUnpin s.kernel.pages f), .user (some r))
  | .asleep key seen, .next => if s.runnable t then some (s, .resumed key seen) else none
  | .linked key f seen, .kick => some (s.enqueue t, .linked key f seen)
  | .asleep key seen, .kick => some (s.enqueue t, .asleep key seen)
  | .resumed key _, .finish pendingWork expired =>
    if ∃ w ∈ s.buckets (bucketOf key), w.thread = t then
      some (s.setBucket (bucketOf key) ((s.buckets (bucketOf key)).filter (·.thread ≠ t)),
        .user (some (unwoken pendingWork expired)))
    else some (s, .user (some (.ok ())))
  | .user _, .store key value => storeWord s key value
  | .stored key index, .wake count =>
    some ((s.announce key count index).futexWake key count, .user none)
  | .user _, .wakeOnly key count => some (s.futexWake key count, .user none)
  | _, _ => none

abbrev World (T : Type) := Threads T (Shared T) Pc

/-- No thread waits, and no store is counted yet. -/
def start (kernel : Kernel) : World T where
  shared :=
    { kernel := kernel
      buckets := fun _ => []
      runnable := fun _ => true
      stores := fun _ => 0
      announced := fun _ => 0
      reached := fun _ _ => 0 }
  pc := fun _ => .user none

def World.step : World T → T × Act → Option (World T) := Threads.step (Futex.step files fuel)

/-! ## The loop of `futex_wake` -/

section

variable {key : Key} {n : Nat} {ws : List (Waiter T)} {x : Waiter T}

omit [DecidableEq T]

theorem mem_of_mem_wakeLoop (h : x ∈ (wakeLoop key n ws).1) : x ∈ ws := by
  induction ws generalizing n with
  | nil => exact h
  | cons w ws ih =>
    rw [wakeLoop] at h
    split at h
    · exact .tail _ (ih h)
    rcases List.mem_cons.mp h with rfl | h
    · exact .head _
    · exact .tail _ (ih h)

theorem wakeLoop_woken (h : x ∈ ws) :
    x ∈ (wakeLoop key n ws).1 ∨ x.thread ∈ (wakeLoop key n ws).2 := by
  induction ws generalizing n with
  | nil => cases h
  | cons w ws ih =>
    rw [wakeLoop]
    split
    · rcases List.mem_cons.mp h with rfl | h
      · exact .inr (.head _)
      · exact (ih h).imp_right (.tail _)
    · rcases List.mem_cons.mp h with rfl | h
      · exact .inl (.head _)
      · exact (ih h).imp_left (.tail _)

theorem wakeLoop_all (hn : ws.countP (·.key = key) ≤ n) (h : x ∈ (wakeLoop key n ws).1) :
    x.key ≠ key := by
  induction ws generalizing n with
  | nil => cases h
  | cons w ws ih =>
    rw [wakeLoop] at h
    by_cases hw : w.key = key
    · have hpos : 0 < n ∧ w.key = key := ⟨by simp [hw] at hn; omega, hw⟩
      rw [if_pos hpos] at h
      exact ih (by simp [hw] at hn; omega) h
    · rw [if_neg fun h => hw h.2] at h
      rcases List.mem_cons.mp h with rfl | h
      · exact hw
      · exact ih (by simpa [hw] using hn) h

end

/-! ## What every run keeps -/

namespace Pc

/-- The word a thread waits for, from when it is on the list of waiters until it returns. -/
def waitsOn : Pc → Option (Key × Nat)
  | linked key _ seen | asleep key seen | resumed key seen => some (key, seen)
  | _ => none

/-- As before, but the thread is not scheduled again yet. -/
def sleepsOn : Pc → Option Key
  | linked key _ _ | asleep key _ => some key
  | _ => none

end Pc

structure Inv (w : World T) : Prop where
  announced_le : ∀ key, w.shared.announced key ≤ w.shared.stores key
  mapped : ∀ key f, frameAt w.shared.kernel key = some f →
    w.shared.reached key f = w.shared.stores key
  stored : ∀ t key i, w.pc t = .stored key i → i ≤ w.shared.stores key
  /-- Who is on a list has seen every store that is announced. -/
  entry : ∀ b, ∀ x ∈ w.shared.buckets b, b = bucketOf x.key ∧
    ∃ seen, (w.pc x.thread).waitsOn = some (x.key, seen) ∧ w.shared.announced x.key ≤ seen
  awake : ∀ t key, (w.pc t).sleepsOn = some key →
    w.shared.runnable t = true ∨ ∃ x ∈ w.shared.buckets (bucketOf key), x.thread = t

namespace Inv

variable {w : World T} {s : Shared T} {t : T} {p : Pc}

omit [DecidableEq T] in
theorem start (kernel : Kernel) : Inv (start kernel : World T) where
  announced_le := fun _ => Nat.le_refl _
  mapped := fun _ _ _ => rfl
  stored := by simp [Futex.start]
  entry := by simp [Futex.start]
  awake := by simp [Futex.start, Pc.sleepsOn]

/-- A step that changes neither the lists nor what is announced. -/
theorem quiet (inv : Inv w) (hbuckets : s.buckets = w.shared.buckets)
    (hann : s.announced = w.shared.announced)
    (hrun : ∀ u, w.shared.runnable u = true → s.runnable u = true)
    (hsts : ∀ key, w.shared.stores key ≤ s.stores key)
    (hmap : ∀ key f, frameAt s.kernel key = some f → s.reached key f = s.stores key)
    (hsto : ∀ key i, p = .stored key i → i ≤ s.stores key)
    (hwts : p.waitsOn = (w.pc t).waitsOn)
    (hslp : ∀ key, p.sleepsOn = some key → (w.pc t).sleepsOn = some key) :
    Inv (w.move t s p) where
  announced_le := fun key => by
    rw [Threads.move_shared, hann]
    exact (inv.announced_le key).trans (hsts key)
  mapped := hmap
  stored := fun u => by
    refine Threads.move_cases u hsto fun _ key i hu => ?_
    exact (inv.stored u key i hu).trans (hsts key)
  entry := fun b x hx => by
    rw [Threads.move_shared, hbuckets] at hx
    obtain ⟨hb, seen, hsn, hle⟩ := inv.entry b x hx
    refine ⟨hb, seen, ?_, by rwa [Threads.move_shared, hann]⟩
    rcases eq_or_ne x.thread t with ht | ht
    · rw [ht, Threads.move_pc_self, hwts, ← ht, hsn]
    · rw [Threads.move_pc_of_ne ht, hsn]
  awake := fun u key => by
    rw [Threads.move_shared, hbuckets]
    rcases eq_or_ne u t with rfl | hu
    · rw [Threads.move_pc_self]
      exact fun h => (inv.awake u key (hslp key h)).imp_left (hrun u)
    · rw [Threads.move_pc_of_ne hu]
      exact fun h => (inv.awake u key h).imp_left (hrun u)

omit [DecidableEq T] in
theorem setKernel_mapped (s : Shared T) (k : Kernel) (key : Key) (f : Nat)
    (h : frameAt (s.setKernel k).kernel key = some f) :
    (s.setKernel k).reached key f = (s.setKernel k).stores key :=
  if_pos h

section
variable (inv : Inv w)
include inv

theorem setKernel (k : Kernel) (hsto : ∀ key i, p = .stored key i →
      i ≤ w.shared.stores key) (hwts : p.waitsOn = (w.pc t).waitsOn)
    (hslp : ∀ key, p.sleepsOn = some key → (w.pc t).sleepsOn = some key) :
    Inv (w.move t (w.shared.setKernel k) p) :=
  inv.quiet rfl rfl (fun _ h => h) (fun _ => Nat.le_refl _) (setKernel_mapped _ k) hsto hwts
    hslp

/-- The thread goes on, and nothing else changes. -/
theorem goOn (hwts : p.waitsOn = (w.pc t).waitsOn) (hslp : p.sleepsOn = none)
    (hsto : ∀ key i, p ≠ .stored key i) : Inv (w.move t w.shared p) :=
  inv.quiet rfl rfl (fun _ h => h) (fun _ => Nat.le_refl _) inv.mapped (by simp [hsto]) hwts
    (by simp [hslp])

variable {key : Key}

/-- The wait begins: the thread has seen every store to the word. -/
theorem link (hpc : w.pc t = .pinned key expected f)
    (hsn : w.shared.reached key f = w.shared.stores key) :
    Inv (w.move t ((w.shared.setBucket (bucketOf key)
      (w.shared.buckets (bucketOf key) ++ [⟨key, t⟩])).dequeue t)
      (.linked key f (w.shared.reached key f))) := by
  have hmem : ∀ {b x}, x ∈ update w.shared.buckets (bucketOf key)
      (w.shared.buckets (bucketOf key) ++ [⟨key, t⟩]) b →
      x ∈ w.shared.buckets b ∨ b = bucketOf key ∧ x = ⟨key, t⟩ := by
    intro b x hx
    by_cases hb : b = bucketOf key
    · subst hb
      have hx : x ∈ w.shared.buckets (bucketOf key) ∨ x = ⟨key, t⟩ := by simpa using hx
      exact hx.imp_right fun h => ⟨rfl, h⟩
    · exact .inl (by simpa [hb] using hx)
  refine ⟨inv.announced_le, inv.mapped, ?_, ?_, ?_⟩
  · intro u
    exact Threads.move_cases u (by simp) fun _ => inv.stored u
  · intro b x hx
    rcases hmem hx with hold | ⟨rfl, rfl⟩
    · obtain ⟨hb, seen, hwt, hle⟩ := inv.entry b x hold
      have hne : x.thread ≠ t := by
        rintro rfl
        simp [hpc, Pc.waitsOn] at hwt
      exact ⟨hb, seen, by rwa [Threads.move_pc_of_ne hne], hle⟩
    · refine ⟨rfl, w.shared.reached key f, by rw [Threads.move_pc_self]; rfl, ?_⟩
      rw [hsn]
      exact inv.announced_le key
  · intro u key' hu
    rcases eq_or_ne u t with rfl | hne
    · rw [Threads.move_pc_self] at hu
      cases hu
      exact .inr ⟨⟨key, u⟩, by simp [Shared.setBucket, Shared.dequeue], rfl⟩
    rw [Threads.move_pc_of_ne hne] at hu
    refine (inv.awake u key' hu).imp ?_ ?_
    · simp [Shared.setBucket, Shared.dequeue, hne]
    rintro ⟨x, hx, rfl⟩
    refine ⟨x, ?_, rfl⟩
    by_cases hb : bucketOf key' = bucketOf key
    · rw [hb] at hx ⊢
      simp [Shared.setBucket, Shared.dequeue, hx]
    · simpa [Shared.setBucket, Shared.dequeue, hb] using hx

/-- Waiters come off a list: each is on the run queue, or is the thread itself. -/
theorem shrink (hkernel : s.kernel = w.shared.kernel) (hreached : s.reached = w.shared.reached)
    (hsto : s.stores = w.shared.stores)
    (hann : ∀ key, s.announced key ≤ s.stores key)
    (hent : ∀ b, ∀ x ∈ s.buckets b, x ∈ w.shared.buckets b ∧ x.thread ≠ t ∧
      s.announced x.key = w.shared.announced x.key)
    (hrb : ∀ u, w.shared.runnable u = true → s.runnable u = true)
    (hoff : ∀ b, ∀ x ∈ w.shared.buckets b,
      x ∈ s.buckets b ∨ s.runnable x.thread = true ∨ x.thread = t)
    (r : Option (Except Errno Unit)) : Inv (w.move t s (.user r)) := by
  refine ⟨hann, ?_, ?_, ?_, ?_⟩
  · rw [Threads.move_shared, hkernel, hreached, hsto]
    exact inv.mapped
  · intro u
    rw [Threads.move_shared, hsto]
    exact Threads.move_cases u (by simp) fun _ => inv.stored u
  · intro b x hx
    obtain ⟨hold, hne, hsame⟩ := hent b x hx
    obtain ⟨hb, seen, hwt, hle⟩ := inv.entry b x hold
    exact ⟨hb, seen, by rwa [Threads.move_pc_of_ne hne], hsame.trans_le hle⟩
  · intro u key hu
    rcases eq_or_ne u t with rfl | hne
    · rw [Threads.move_pc_self] at hu
      cases hu
    rw [Threads.move_pc_of_ne hne] at hu
    rcases inv.awake u key hu with hrun | ⟨x, hx, rfl⟩
    · exact .inl (hrb u hrun)
    rcases hoff _ x hx with hx | hrun | ht
    · exact .inr ⟨x, hx, rfl⟩
    · exact .inl hrun
    · exact absurd ht hne

theorem unlink (hpc : w.pc t = .resumed key seen) (r : Option (Except Errno Unit)) :
    Inv (w.move t (w.shared.setBucket (bucketOf key)
      ((w.shared.buckets (bucketOf key)).filter (·.thread ≠ t))) (.user r)) := by
  refine inv.shrink (by rfl) (by rfl) (by rfl) ?_ (fun b x hx => ?_) ?_ (fun b x hx => ?_) r
  · exact inv.announced_le
  · by_cases hb : b = bucketOf key
    · subst hb
      have hx : x ∈ w.shared.buckets (bucketOf key) ∧ x.thread ≠ t := by
        simpa [Shared.setBucket] using hx
      exact ⟨hx.1, hx.2, rfl⟩
    have hold : x ∈ w.shared.buckets b := by simpa [Shared.setBucket, hb] using hx
    refine ⟨hold, ?_, rfl⟩
    -- the entries of a thread are in the bucket of the word it waits for
    rintro rfl
    obtain ⟨rfl, seen', hwt, -⟩ := inv.entry b x hold
    simp only [hpc, Pc.waitsOn, some.injEq, Prod.mk.injEq] at hwt
    exact hb (by rw [hwt.1])
  · exact fun _ h => h
  by_cases ht : x.thread = t
  · exact .inr (.inr ht)
  by_cases hb : b = bucketOf key
  · subst hb
    exact .inl (by simp [Shared.setBucket, hx, ht])
  · exact .inl (by simpa [Shared.setBucket, hb] using hx)

theorem futexWake (hnot : (w.pc t).waitsOn = none) (hle : ∀ k, announced k ≤ w.shared.stores k)
    (hoth : ∀ x ∈ (wakeLoop key count (w.shared.buckets (bucketOf key))).1,
      announced x.key = w.shared.announced x.key)
    (hks : ∀ k, k ≠ key → announced k = w.shared.announced k) (r : Option (Except Errno Unit)) :
    Inv (w.move t (Shared.futexWake { w.shared with announced := announced } key count)
      (.user r)) := by
  have hthr : ∀ b, ∀ x ∈ w.shared.buckets b, x.thread ≠ t := by
    rintro b x hx rfl
    obtain ⟨-, seen, hwt, -⟩ := inv.entry b x hx
    rw [hnot] at hwt
    cases hwt
  refine inv.shrink (by rfl) (by rfl) (by rfl) hle (fun b x hx => ?_) (fun u hu => ?_)
    (fun b x hx => ?_) r
  · by_cases hb : b = bucketOf key
    · subst hb
      have hx : x ∈ (wakeLoop key count (w.shared.buckets (bucketOf key))).1 := by
        simpa [Shared.futexWake, Shared.setBucket] using hx
      have hold := mem_of_mem_wakeLoop hx
      exact ⟨hold, hthr _ x hold, hoth x hx⟩
    · have hold : x ∈ w.shared.buckets b := by
        simpa [Shared.futexWake, Shared.setBucket, hb] using hx
      refine ⟨hold, hthr b x hold, hks x.key ?_⟩
      rintro rfl
      exact hb (inv.entry b x hold).1
  · simp [Shared.futexWake, hu]
  by_cases hb : b = bucketOf key
  · subst hb
    rcases (wakeLoop_woken hx : x ∈ (wakeLoop key count _).1 ∨ _) with hstay | hwoken
    · exact .inl (by simpa [Shared.futexWake, Shared.setBucket] using hstay)
    · exact .inr (.inl (by simp [Shared.futexWake, hwoken]))
  · exact .inl (by simpa [Shared.futexWake, Shared.setBucket, hb] using hx)

theorem wakeOnly (hnot : (w.pc t).waitsOn = none) (r : Option (Except Errno Unit)) :
    Inv (w.move t (w.shared.futexWake key count) (.user r)) :=
  inv.futexWake hnot inv.announced_le (fun _ _ => rfl) (fun _ _ => rfl) r

theorem wake (hpc : w.pc t = .stored key index) (r : Option (Except Errno Unit)) :
    Inv (w.move t ((w.shared.announce key count index).futexWake key count) (.user r)) := by
  have hnot : (w.pc t).waitsOn = none := by rw [hpc]; rfl
  unfold Shared.announce
  split
  case isTrue hall =>
    refine inv.futexWake hnot (fun k => ?_) (fun x hx => ?_) (fun k hk => ?_) r
    · by_cases hk : k = key
      · subst hk
        simpa using ⟨inv.announced_le k, inv.stored t k index hpc⟩
      · simpa [hk] using inv.announced_le k
    · exact update_of_ne (wakeLoop_all hall hx) ..
    · exact update_of_ne hk ..
  case isFalse => exact inv.wakeOnly hnot r

end

end Inv

/-- A thread that looks at the word looks at what user code sees there: its frame is still mapped,
or no store has gone to the word since it was replaced. -/
def Shared.LooksAtWord (s : Shared T) : Pc → Act → Prop
  | .pinned key _ f, .check _ =>
    frameAt s.kernel key = some f ∨ s.reached key f = s.stores key
  | _, _ => True

omit [DecidableEq T] in
instance (s : Shared T) : (pc : Pc) → (a : Act) → Decidable (s.LooksAtWord pc a)
  | .pinned _ _ _, .check _ => inferInstanceAs (Decidable (_ ∨ _))
  | .pinned _ _ _, .mem _ | .pinned _ _ _, .wait _ _ | .pinned _ _ _, .next
  | .pinned _ _ _, .kick | .pinned _ _ _, .finish _ _ | .pinned _ _ _, .store _ _
  | .pinned _ _ _, .wake _ | .pinned _ _ _, .wakeOnly _ _ | .user _, _ | .linked _ _ _, _
  | .asleep _ _, _ | .resumed _ _, _ | .unpinning _ _, _ | .stored _ _, _ => isTrue trivial

def LooksAtWord (w : World T) (a : T × Act) : Prop := w.shared.LooksAtWord (w.pc a.1) a.2

instance (w : World T) (a : T × Act) : Decidable (LooksAtWord w a) :=
  inferInstanceAs (Decidable (w.shared.LooksAtWord _ _))

variable {files fuel}

variable {s : Shared T}

theorem Inv.futexWait (inv : Inv w) (hpc : w.pc t = .user r)
    (h : futexWait files fuel w.shared key expected = some (s, p)) : Inv (w.move t s p) := by
  unfold Futex.futexWait at h
  split at h
  case isTrue =>
    cases h
    exact inv.goOn (by rw [hpc]; rfl) rfl nofun
  obtain ⟨regions, -, heq⟩ := map_eq_some_iff.mp h
  split at heq
  all_goals
    cases heq
    exact inv.setKernel _ (by simp) (by rw [hpc]; rfl) (by simp [Pc.sleepsOn])

theorem Inv.storeWord (inv : Inv w) (hpc : w.pc t = .user r)
    (h : storeWord w.shared key value = some (s, p)) : Inv (w.move t s p) := by
  unfold Futex.storeWord at h
  obtain ⟨-, h⟩ := ite_none_left_eq_some.mp h
  obtain ⟨entry, -, ⟨⟩⟩ := map_eq_some_iff.mp h
  refine inv.quiet rfl rfl (fun _ h => h) (fun k => ?_) (Inv.setKernel_mapped _ _) ?_
    (by rw [hpc]; rfl) (by simp [Pc.sleepsOn])
  · by_cases hk : k = key
    · subst hk
      simp [Shared.setPages, Shared.setKernel]
    · simp [Shared.setPages, Shared.setKernel, hk]
  · rintro _ _ ⟨⟩
    simp [Shared.setPages, Shared.setKernel]

theorem Inv.check (inv : Inv w) (hloo : LooksAtWord w (t, .check expired))
    (hpc : w.pc t = .pinned key expected f)
    (h : Futex.step files fuel t w.shared (.pinned key expected f) (.check expired) = some (s, p)) :
    Inv (w.move t s p) := by
  simp only [Futex.step] at h
  split at h
  case isTrue =>
    cases h
    exact inv.goOn (by rw [hpc]; rfl) rfl nofun
  split at h
  case isTrue =>
    cases h
    exact inv.goOn (by rw [hpc]; rfl) rfl nofun
  cases h
  have hloo : frameAt w.shared.kernel key = some f ∨
      w.shared.reached key f = w.shared.stores key := by
    simpa [LooksAtWord, Shared.LooksAtWord, hpc] using hloo
  exact inv.link hpc (hloo.elim (inv.mapped key f) id)

theorem Inv.step {a : T × Act} (inv : Inv w) (hloo : LooksAtWord w a)
    (h : World.step files fuel w a = some w') : Inv w' := by
  obtain ⟨t, a⟩ := a
  obtain ⟨s, p, hst, rfl⟩ := Threads.step_cases h
  simp only at hst ⊢
  generalize hpc : w.pc t = pc at hst
  have hwho := hst
  unfold Futex.step at hst
  split at hst
  case h_1 =>
    obtain ⟨out, -, ⟨⟩⟩ := map_eq_some_iff.mp hst
    exact inv.setKernel out.2 (by simp) (by rw [hpc]) (by simp [Pc.sleepsOn])
  case h_2 key i _ =>
    obtain ⟨out, -, ⟨⟩⟩ := map_eq_some_iff.mp hst
    refine inv.setKernel out.2 ?_ (by rw [hpc]) (by simp [Pc.sleepsOn])
    rintro _ _ ⟨⟩
    exact inv.stored t key i hpc
  case h_3 => exact inv.futexWait hpc hst
  case h_4 => exact inv.check hloo hpc hwho
  case h_5 | h_6 =>
    cases hst
    exact inv.setKernel _ (by simp) (by rw [hpc]; rfl) (by simp [hpc, Pc.sleepsOn])
  case h_7 =>
    obtain ⟨-, ⟨⟩⟩ := of_guard hst
    exact inv.goOn (by rw [hpc]; rfl) rfl nofun
  case h_8 | h_9 =>
    cases hst
    refine inv.quiet rfl rfl (fun u hu => ?_) (fun _ => Nat.le_refl _) inv.mapped (by simp)
      (by rw [hpc]) (by simp [hpc])
    rcases eq_or_ne u t with rfl | hne
    · simp [Shared.enqueue]
    · simpa [Shared.enqueue, hne] using hu
  case h_10 key seen _ _ =>
    split at hst
    case isTrue =>
      cases hst
      exact inv.unlink hpc _
    rename_i hoff
    cases hst
    have hsame : (w.shared.buckets (bucketOf key)).filter (·.thread ≠ t) =
        w.shared.buckets (bucketOf key) :=
      List.filter_eq_self.mpr fun x hx => by simpa using fun h => hoff ⟨x, hx, h⟩
    have hun := inv.unlink hpc (some (.ok ()))
    rwa [hsame, Shared.setBucket, update_eq_self] at hun
  case h_11 => exact inv.storeWord hpc hst
  case h_12 =>
    cases hst
    exact inv.wake hpc none
  case h_13 =>
    cases hst
    exact inv.wakeOnly (by rw [hpc]; rfl) none
  case h_14 => cases hst

/-- In every run whose waiters look at the word that user code sees: a thread in `futex_wait` that
has not seen a store whose wake, with a count enough for all, is through is on no list of waiters
and on the run queue. -/
theorem futex_loses_no_wakeup {kernel : Kernel} {as : List (T × Act)} {w : World T}
    (hrun : Run (Under LooksAtWord (Advances (World.step files fuel))) (start kernel) as w) :
    ∀ t key seen, w.pc t = .asleep key seen → seen < w.shared.announced key →
      (∀ b, ∀ x ∈ w.shared.buckets b, x.thread ≠ t) ∧ w.shared.runnable t = true := by
  have inv : Inv w := hrun.invariant (fun inv h => inv.step h.1 h.2) (.start kernel)
  intro t key seen hpc hlt
  have hoff : ∀ b, ∀ x ∈ w.shared.buckets b, x.thread ≠ t := by
    rintro b x hx rfl
    obtain ⟨-, seen', hwait, hle⟩ := inv.entry b x hx
    rw [hpc] at hwait
    cases hwait
    omega
  refine ⟨hoff, (inv.awake t key (by rw [hpc]; rfl)).resolve_right ?_⟩
  rintro ⟨x, hx, ht⟩
  exact hoff _ x hx ht

/-- One address space with one writable page, and memory for more. -/
def onePage : List Op :=
  [.create 0, .map 0 0x10000 0x11000 (VPROT_READ ||| VPROT_WRITE) none,
    .fault 0 0x10000 VPROT_WRITE]

def memory : Kernel := .init 0 ((List.range 20).map fun i => some (i + 1))

abbrev word : Key := (0, 0x10000)

/-- Thread 0 waits while the word is 0. Thread 1 stores 1 and wakes it, after it has looked. -/
def waitThenWake : List (Nat × Act) :=
  (onePage.map fun op => (1, .mem op)) ++
    [(0, .wait word 0), (0, .check false), (0, .next), (1, .store word 1), (1, .wake 5)]

/-- As before, but thread 1 forks, stores and wakes between the pin and the look. -/
def forkThenWake : List (Nat × Act) :=
  (onePage.map fun op => (1, .mem op)) ++
    [(0, .wait word 0), (1, .mem (.create 1)), (1, .mem (.clone 1 0)),
     (1, .mem (.fault 0 0x10000 VPROT_WRITE)), (1, .store word 1), (1, .wake 5),
     (0, .check false), (0, .next)]

/-- The store went to the copy, the look to the frame that the child has now: the waiter sleeps on
the list, though the store and the wake are through. -/
theorem fork_loses_wakeup : ∃ w,
    Run (Advances (World.step noFiles 1)) (start memory) forkThenWake w ∧
      w.pc 0 = .asleep word 0 ∧ w.shared.announced word = 1 ∧
      w.shared.buckets (bucketOf word) = [⟨word, 0⟩] ∧ w.shared.runnable 0 = false :=
  Run.exists_of_any Run.of_foldlM (by decide +kernel)

/-- Here the wake finds the waiter. -/
theorem futex_loses_no_wakeup_waitThenWake : ∃ w,
    Run (Under LooksAtWord (Advances (World.step noFiles 1))) (start memory) waitThenWake w ∧
      w.pc 0 = .asleep word 0 ∧ w.shared.announced word = 1 ∧ w.shared.runnable 0 = true := by
  refine Run.exists_and₂ (Run.exists_of_any Run.of_foldlM_under (by decide +kernel))
    fun w hrun hpc _ => ?_
  exact (futex_loses_no_wakeup hrun 0 word 0 hpc (by omega)).2

end Vex.Proc.Futex
