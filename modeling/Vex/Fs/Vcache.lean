import Mathlib.Algebra.Group.Nat.Defs
import Mathlib.Data.List.Perm.Basic
import Mathlib.Data.List.Nodup

/-! The vnode cache of `vcache.c`: 256 hash chains of entries and the queue of unused ones.

Vnodes and file systems are numbers. An entry belongs to one vnode, whose `cache_entry` points to
it, so chains and queue list the vnodes of their entries. Every function here runs under
`cache_lock`; the reference counts belong to the callers. -/

namespace Vex.Fs

open Option

/-- `vcache_entry_t`, without its links. -/
structure Entry where
  fs : Nat
  ino : Nat
  pinned : Bool
  unused : Bool
  deriving DecidableEq, Repr

structure Vcache where
  /-- `cache_entry` of each vnode. -/
  entry : Nat → Option Entry
  /-- The chain of each bucket, first to last. -/
  cache : Nat → List Nat
  /-- From `unused_head` to `unused_tail`. -/
  queue : List Nat

/-- `hash_bucket` of a file system at the address `fs`. -/
def hashBucket (fs ino : Nat) : Nat :=
  ((fs * 0x9E3779B97F4A7C15) % 2 ^ 64 ^^^ (ino * 0x517CC1B727220A95) % 2 ^ 64) / 2 ^ 56 % 256

def Entry.bucket (e : Entry) : Nat := hashBucket e.fs e.ino

namespace Vcache

def empty : Vcache := ⟨fun _ => none, fun _ => [], []⟩

def setEntry (c : Vcache) (v : Nat) (e : Option Entry) : Vcache :=
  { c with entry := fun w => if w = v then e else c.entry w }

def setChain (c : Vcache) (b : Nat) (vs : List Nat) : Vcache :=
  { c with cache := fun b' => if b' = b then vs else c.cache b' }

def isUnused (c : Vcache) (v : Nat) : Bool := (c.entry v).any (·.unused)

def hasKey (c : Vcache) (fs ino v : Nat) : Bool :=
  (c.entry v).any fun e => e.fs == fs && e.ino == ino

/-- `unused_append_nolock`. -/
def unusedAppend (c : Vcache) (v : Nat) : Vcache :=
  { c.setEntry v ((c.entry v).map fun e => { e with unused := true }) with
    queue := c.queue ++ [v] }

/-- `unused_unlink_nolock`. -/
def unusedUnlink (c : Vcache) (v : Nat) : Vcache :=
  { c.setEntry v ((c.entry v).map fun e => { e with unused := false }) with
    queue := c.queue.erase v }

/-- `bucket_detach_nolock`. -/
def bucketDetach (c : Vcache) (v : Nat) : Vcache :=
  match c.entry v with
  | none => c
  | some e => c.setChain e.bucket ((c.cache e.bucket).erase v)

/-- `bucket_unlink_nolock`. -/
def bucketUnlink (c : Vcache) (v : Nat) : Vcache := (c.bucketDetach v).setEntry v none

/-- An entry at the head of the chain of its key. -/
def bucketPush (c : Vcache) (v : Nat) (e : Entry) : Vcache :=
  (c.setChain e.bucket (v :: c.cache e.bucket)).setEntry v (some e)

attribute [local simp] Vcache.bucketPush

/-- `take_nolock`, whose caller counts the reference. -/
def takeNolock (c : Vcache) (v : Nat) : Vcache := if c.isUnused v then c.unusedUnlink v else c

def findNolock (c : Vcache) (fs ino : Nat) : Option Nat :=
  (c.cache (hashBucket fs ino)).find? (c.hasKey fs ino)

/-- `insert`, once the entry is allocated: the vnode it returns. -/
def insert (c : Vcache) (v fs ino : Nat) (pinned : Bool) : Nat × Vcache :=
  match c.findNolock fs ino with
  | some w => (w, c.takeNolock w)
  | none => (v, c.bucketPush v ⟨fs, ino, pinned, false⟩)

/-- `vcache_get`. -/
def get (c : Vcache) (fs ino : Nat) : Option (Nat × Vcache) :=
  (c.findNolock fs ino).map fun w => (w, c.takeNolock w)

/-- A vnode without references waits in the queue. -/
def enqueue (c : Vcache) (v : Nat) : Vcache := if c.isUnused v then c else c.unusedAppend v

/-- The loop of `vcache_keep`. Each turn shortens the queue, so its length is fuel enough. -/
def evictLoop (max : Nat) : Nat → Vcache → List Nat → Vcache × List Nat
  | 0, c, evicted => (c, evicted)
  | n + 1, c, evicted =>
    match c.queue with
    | [] => (c, evicted)
    | oldest :: _ =>
      if c.queue.length > max then
        evictLoop max n ((c.unusedUnlink oldest).bucketUnlink oldest) (oldest :: evicted)
      else (c, evicted)

/-- What `vcache_keep` finds under the lock. -/
inductive Kept
  /-- The vnode is in use again. -/
  | used
  /-- It has no entry: the caller destroys it. -/
  | uncached
  /-- It waits in the queue; these vnodes had to leave it and are to be destroyed. -/
  | queued (c : Vcache) (evicted : List Nat)

/-- `vcache_keep`, up to the release of the lock. -/
def keep (max : Nat) (c : Vcache) (refcount v : Nat) : Kept :=
  if refcount ≠ 0 then .used
  else match c.entry v with
    | none => .uncached
    | some _ =>
      let r := evictLoop max (c.enqueue v).queue.length (c.enqueue v) []
      .queued r.1 r.2

/-- `vcache_remove`, by a holder of the vnode, whose entry is therefore not unused. -/
def remove (c : Vcache) (v : Nat) : Vcache :=
  match c.entry v with
  | none => c
  | some _ => c.bucketUnlink v

/-- `vcache_rekey`, for the entry. -/
def rekey (c : Vcache) (v ino : Nat) : Vcache :=
  match c.entry v with
  | none => c
  | some e => (c.bucketDetach v).bucketPush v { e with ino }

/-! ## Well-formed caches -/

/-- Chains and queue list exactly the entries that belong there, and no key has two entries. -/
structure Ok (c : Vcache) : Prop where
  chain : ∀ {b v}, v ∈ c.cache b ↔ ∃ e, c.entry v = some e ∧ e.bucket = b
  nodup : ∀ b, (c.cache b).Nodup
  key : ∀ {v w e f}, c.entry v = some e → c.entry w = some f → e.fs = f.fs → e.ino = f.ino → v = w
  queued : ∀ {v}, v ∈ c.queue ↔ ∃ e, c.entry v = some e ∧ e.unused
  queue_nodup : c.queue.Nodup

variable {c : Vcache} {v w fs ino : Nat} {e : Entry}

theorem empty_ok : empty.Ok := by
  constructor <;> simp [empty]

@[simp] theorem hasKey_iff :
    c.hasKey fs ino v ↔ ∃ e, c.entry v = some e ∧ e.fs = fs ∧ e.ino = ino := by
  simp [hasKey, any_eq_true]

theorem Ok.find (h : c.Ok) :
    c.findNolock fs ino = some v ↔ ∃ e, c.entry v = some e ∧ e.fs = fs ∧ e.ino = ino := by
  constructor
  · intro hf
    exact hasKey_iff.1 (List.find?_some hf)
  rintro ⟨e, he, rfl, rfl⟩
  have hv : v ∈ c.cache (hashBucket e.fs e.ino) := h.chain.2 ⟨e, he, rfl⟩
  cases hf : c.findNolock e.fs e.ino with
  | none =>
    have := List.find?_eq_none.1 hf v hv
    exact absurd (hasKey_iff.2 ⟨e, he, rfl, rfl⟩) this
  | some w =>
    obtain ⟨f, hw, hfs, hino⟩ := hasKey_iff.1 (List.find?_some hf)
    rw [h.key hw he hfs hino]

theorem Ok.find_none (h : c.Ok) (hf : c.findNolock fs ino = none) (he : c.entry v = some e) :
    ¬(e.fs = fs ∧ e.ino = ino) := by
  intro hk
  rw [h.find.2 ⟨e, he, hk⟩] at hf
  cases hf

/-! ## What each function does to entries and queue -/

section
variable (c v) (e : Option Entry) (b : Nat) (vs : List Nat)

@[simp] theorem setEntry_entry : (c.setEntry v e).entry w = if w = v then e else c.entry w := rfl
@[simp] theorem setEntry_cache : (c.setEntry v e).cache = c.cache := rfl
@[simp] theorem setEntry_queue : (c.setEntry v e).queue = c.queue := rfl
@[simp] theorem setChain_entry : (c.setChain b vs).entry = c.entry := rfl
@[simp] theorem setChain_queue : (c.setChain b vs).queue = c.queue := rfl
@[simp] theorem setChain_cache :
    (c.setChain b vs).cache b' = if b' = b then vs else c.cache b' := rfl
@[simp] theorem unusedUnlink_entry : (c.unusedUnlink v).entry w =
    if w = v then (c.entry v).map fun e => { e with unused := false } else c.entry w := rfl
@[simp] theorem unusedUnlink_queue : (c.unusedUnlink v).queue = c.queue.erase v := rfl

@[simp] theorem bucketDetach_entry : (c.bucketDetach v).entry = c.entry := by
  unfold bucketDetach
  split <;> rfl

@[simp] theorem bucketDetach_queue : (c.bucketDetach v).queue = c.queue := by
  unfold bucketDetach
  split <;> rfl

@[simp] theorem bucketUnlink_entry :
    (c.bucketUnlink v).entry w = if w = v then none else c.entry w := by
  simp [bucketUnlink]

@[simp] theorem bucketUnlink_queue : (c.bucketUnlink v).queue = c.queue := by
  simp [bucketUnlink]

end

section
variable (h : c.Ok) (he : c.entry v = some e)
include h he

theorem Ok.setUnused {unused : Bool} {queue : List Nat}
    (hq : ∀ w, w ∈ queue ↔ if w = v then unused else w ∈ c.queue) (hn : queue.Nodup) :
    Ok { c.setEntry v (some { e with unused }) with queue } := by
  have hent : ∀ {w f}, (c.setEntry v (some { e with unused })).entry w = some f →
      ∃ f', c.entry w = some f' ∧ f'.fs = f.fs ∧ f'.ino = f.ino := by
    intro w f hf
    by_cases hw : w = v
    · subst hw
      obtain rfl : { e with unused } = f := by simpa using hf
      exact ⟨e, he, rfl, rfl⟩
    · exact ⟨f, by simpa [hw] using hf, rfl, rfl⟩
  refine ⟨fun {b w} => ?_, h.nodup, fun {w x f g} hw hx hfs hino => ?_, fun {w} => ?_, hn⟩
  · by_cases hw : w = v
    · subst hw
      simp [h.chain, he, Entry.bucket]
    · simp [h.chain, hw]
  · obtain ⟨f', hf', hffs, hfino⟩ := hent hw
    obtain ⟨g', hg', hgfs, hgino⟩ := hent hx
    exact h.key hf' hg' (by rw [hffs, hgfs, hfs]) (by rw [hfino, hgino, hino])
  · rw [hq]
    by_cases hw : w = v
    · simp [hw]
    · simp [hw, h.queued]

theorem Ok.unusedAppend (hu : e.unused = false) :
    (c.unusedAppend v).Ok := by
  have hv : v ∉ c.queue := by simp [h.queued, he, hu]
  rw [Vcache.unusedAppend, he]
  refine h.setUnused he (fun w => ?_) ?_
  · by_cases hw : w = v <;> simp [hw]
  · rw [List.nodup_append]
    exact ⟨h.queue_nodup, by simp, fun w hw x hx hwx => hv (by simp_all)⟩

theorem Ok.unusedUnlink : (c.unusedUnlink v).Ok := by
  rw [Vcache.unusedUnlink, he]
  refine h.setUnused he (fun w => ?_) (h.queue_nodup.erase v)
  rw [h.queue_nodup.mem_erase_iff]
  by_cases hw : w = v <;> simp

theorem Ok.takeNolock : (c.takeNolock v).Ok := by
  unfold Vcache.takeNolock
  split
  · exact h.unusedUnlink he
  · exact h

theorem Ok.bucketUnlink (hu : e.unused = false) :
    (c.bucketUnlink v).Ok := by
  have hv : v ∉ c.queue := by simp [h.queued, he, hu]
  have hc : c.bucketUnlink v =
      (c.setChain e.bucket ((c.cache e.bucket).erase v)).setEntry v none := by
    simp [Vcache.bucketUnlink, bucketDetach, he]
  rw [hc]
  refine ⟨fun {b w} => ?_, fun b => ?_, fun {w x f g} hw hx => ?_, fun {w} => ?_, h.queue_nodup⟩
  · by_cases hb : b = e.bucket
    · subst hb
      rw [setEntry_cache, setChain_cache, if_pos rfl, (h.nodup _).mem_erase_iff, h.chain]
      by_cases hw : w = v <;> simp [hw]
    · by_cases hw : w = v
      · subst hw
        simp [hb, h.chain, he, Ne.symm hb]
      · simp [hb, h.chain, hw]
  · by_cases hb : b = e.bucket
    · subst hb
      simpa using (h.nodup _).erase v
    · simpa [hb] using h.nodup b
  · have hwv : w ≠ v := fun hwv => by simp [hwv] at hw
    have hxv : x ≠ v := fun hxv => by simp [hxv] at hx
    exact h.key (by simpa [hwv] using hw) (by simpa [hxv] using hx)
  · by_cases hw : w = v
    · simpa [hw] using hv
    · simp [hw, h.queued]

end

theorem Ok.bucketPush (h : c.Ok) (he : c.entry v = none) (hu : e.unused = false)
    (hf : c.findNolock e.fs e.ino = none) : (c.bucketPush v e).Ok := by
  have hv : v ∉ c.cache e.bucket := by simp [h.chain, he]
  refine ⟨fun {b w} => ?_, fun b => ?_, fun {w x f g} hw hx hfs hino => ?_, fun {w} => ?_,
    h.queue_nodup⟩
  · by_cases hb : b = e.bucket
    · subst hb
      by_cases hw : w = v
      · simp [hw]
      · simp [hw, h.chain]
    · by_cases hw : w = v
      · subst hw
        simp [hb, h.chain, he, Ne.symm hb]
      · simp [hb, hw, h.chain]
  · by_cases hb : b = e.bucket
    · subst hb
      simpa [h.nodup] using hv
    · simpa [hb] using h.nodup b
  · by_cases hwv : w = v <;> by_cases hxv : x = v
    · rw [hwv, hxv]
    · obtain rfl : e = f := by simpa [hwv] using hw
      have hx : c.entry x = some g := by simpa [hxv] using hx
      exact absurd ⟨hfs.symm, hino.symm⟩ (h.find_none hf hx)
    · obtain rfl : e = g := by simpa [hxv] using hx
      have hw : c.entry w = some f := by simpa [hwv] using hw
      exact absurd ⟨hfs, hino⟩ (h.find_none hf hw)
    · exact h.key (by simpa [hwv] using hw)
        (by simpa [hxv] using hx) hfs hino
  · by_cases hw : w = v
    · subst hw
      simp [h.queued, he, hu]
    · simp [hw, h.queued]

theorem takeNolock_isSome : ((c.takeNolock v).entry w).isSome = (c.entry w).isSome := by
  unfold takeNolock
  split
  · by_cases hw : w = v <;> simp [hw]
  · rfl

theorem Ok.mem_takeNolock (h : c.Ok) : w ∈ (c.takeNolock v).queue ↔ w ∈ c.queue ∧ w ≠ v := by
  unfold Vcache.takeNolock
  split
  case isTrue => simp [h.queue_nodup.mem_erase_iff, and_comm]
  case isFalse hu =>
    refine ⟨fun hw => ⟨hw, ?_⟩, And.left⟩
    rintro rfl
    obtain ⟨e, he, hue⟩ := h.queued.1 hw
    simp [isUnused, he, hue] at hu

theorem Ok.enqueue (h : c.Ok) (he : c.entry v = some e) : (c.enqueue v).Ok := by
  unfold Vcache.enqueue
  split
  case isTrue => exact h
  case isFalse hu => exact h.unusedAppend he (by simpa [isUnused, he] using hu)

theorem Ok.mem_enqueue (h : c.Ok) : w ∈ (c.enqueue v).queue ↔ w ∈ c.queue ∨ w = v := by
  unfold Vcache.enqueue
  split
  case isTrue hu =>
    have hv : v ∈ c.queue := h.queued.2 (by simpa [isUnused, any_eq_true] using hu)
    exact ⟨.inl, fun hw => hw.elim id fun hw => hw ▸ hv⟩
  case isFalse => simp [Vcache.unusedAppend]

theorem enqueue_isSome : ((c.enqueue v).entry w).isSome = (c.entry w).isSome := by
  unfold enqueue
  split
  · rfl
  · by_cases hw : w = v <;> simp [unusedAppend, hw]

theorem Ok.evictLoop (h : c.Ok) (max n : Nat) (evicted : List Nat) :
    ∃ taken, (Vcache.evictLoop max n c evicted).2 = taken.reverse ++ evicted ∧
      c.queue = taken ++ (Vcache.evictLoop max n c evicted).1.queue ∧
      (∀ w, (Vcache.evictLoop max n c evicted).1.entry w =
        if w ∈ taken then none else c.entry w) ∧
      (Vcache.evictLoop max n c evicted).1.Ok := by
  induction n generalizing c evicted with
  | zero => exact ⟨[], by simp [Vcache.evictLoop, h]⟩
  | succ n ih =>
    unfold Vcache.evictLoop
    split
    case h_1 hq => exact ⟨[], by simp [h]⟩
    rename_i v rest hq
    split
    case isFalse => exact ⟨[], by simp [h]⟩
    obtain ⟨e, he, -⟩ := h.queued.1 (by simp [hq] : v ∈ c.queue)
    have h1 := h.unusedUnlink he
    have he1 : (c.unusedUnlink v).entry v = some { e with unused := false } := by
      simp [he]
    obtain ⟨taken, hev, hque, hent, hok⟩ := ih (h1.bucketUnlink he1 rfl) (v :: evicted)
    refine ⟨v :: taken, by simp [hev], ?_, fun w => ?_, hok⟩
    · have hrs : ((c.unusedUnlink v).bucketUnlink v).queue = rest := by
        simp [hq]
      rw [hq, List.cons_append, ← hque, hrs]
    · rw [hent]
      by_cases hw : w = v
      · simp [hw]
      · simp [hw]

variable {max refcount : Nat}

theorem keep_used (hk : c.keep max refcount v = .used) : refcount ≠ 0 := by
  unfold keep at hk
  split at hk
  case isTrue h => exact h
  case isFalse => split at hk <;> cases hk

theorem keep_uncached (hk : c.keep max refcount v = .uncached) :
    refcount = 0 ∧ c.entry v = none := by
  unfold keep at hk
  split at hk
  case isTrue => cases hk
  case isFalse h =>
    split at hk
    case h_1 he => exact ⟨not_not.1 h, he⟩
    case h_2 => cases hk

variable {c' : Vcache} {evicted : List Nat}

theorem keep_queued (hk : c.keep max refcount v = .queued c' evicted) : refcount = 0 := by
  unfold keep at hk
  split at hk
  case isTrue => cases hk
  case isFalse h => exact not_not.1 h

/-- What `vcache_keep` does to a vnode without references that has an entry: it waits in the queue,
unless it is among those that have to leave. -/
theorem Ok.keep (h : c.Ok) (hk : c.keep max 0 v = .queued c' evicted) :
    c'.Ok ∧ evicted.Nodup ∧ (∀ w ∈ evicted, w ∈ c.queue ∨ w = v) ∧
      (∀ w, w ∈ c'.queue ↔ (w ∈ c.queue ∨ w = v) ∧ w ∉ evicted) ∧ (c.entry v).isSome ∧
      ∀ w, (c'.entry w).isSome ↔ (c.entry w).isSome ∧ w ∉ evicted := by
  simp only [Vcache.keep, ne_eq, not_true_eq_false, if_false] at hk
  split at hk
  case h_1 => cases hk
  rename_i e he
  have h1 := h.enqueue he
  obtain ⟨taken, hev, hque, hent, hok⟩ := h1.evictLoop max (c.enqueue v).queue.length []
  generalize Vcache.evictLoop max (c.enqueue v).queue.length (c.enqueue v) [] = r
    at hk hev hque hent hok
  cases hk
  have hndp := h1.queue_nodup
  rw [hque, List.nodup_append] at hndp
  have hmem : ∀ {w}, w ∈ r.2 ↔ w ∈ taken := by simp [hev]
  refine ⟨hok, by simpa [hev] using hndp.1, fun w hw => h.mem_enqueue.1 ?_, fun w => ?_,
    by simp [he], fun w => ?_⟩
  · rw [hque]
    exact List.mem_append_left _ (hmem.1 hw)
  · rw [← h.mem_enqueue, hmem, hque, List.mem_append]
    refine ⟨fun hw => ⟨.inr hw, fun hw' => hndp.2.2 w hw' w hw rfl⟩, ?_⟩
    rintro ⟨hw | hw, hne⟩
    · exact absurd hw hne
    · exact hw
  · rw [hent, hmem, ← enqueue_isSome (v := v)]
    by_cases hw : w ∈ taken <;> simp [hw]

/-! ## Keys -/

/-- The key of a vnode's entry. -/
def key (c : Vcache) (v : Nat) : Option (Nat × Nat) := (c.entry v).map fun e => (e.fs, e.ino)

theorem key_takeNolock : (c.takeNolock v).key w = c.key w := by
  unfold takeNolock
  split
  · by_cases hw : w = v
    · subst hw
      simp [key, Function.comp_def]
    · simp [key, hw]
  · rfl

theorem key_bucketPush :
    (c.bucketPush v e).key w = if w = v then some (e.fs, e.ino) else c.key w := by
  by_cases hw : w = v <;> simp [key, bucketPush, hw]

theorem key_bucketUnlink : (c.bucketUnlink v).key w = if w = v then none else c.key w := by
  by_cases hw : w = v <;> simp [key, hw]

theorem key_enqueue : (c.enqueue v).key w = c.key w := by
  unfold enqueue
  split
  · rfl
  by_cases hw : w = v
  · subst hw
    simp [key, unusedAppend, Function.comp_def]
  · simp [key, unusedAppend, hw]

theorem Ok.key_keep (h : c.Ok) (hk : c.keep max 0 v = .queued c' evicted) :
    c'.key w = if w ∈ evicted then none else c.key w := by
  simp only [Vcache.keep, ne_eq, not_true_eq_false, if_false] at hk
  split at hk
  case h_1 => cases hk
  rename_i e he
  obtain ⟨taken, hev, -, hent, -⟩ := (h.enqueue he).evictLoop max (c.enqueue v).queue.length []
  generalize Vcache.evictLoop max (c.enqueue v).queue.length (c.enqueue v) [] = r
    at hk hev hent
  cases hk
  have hmem : w ∈ r.2 ↔ w ∈ taken := by simp [hev]
  rw [Vcache.key, hent, if_congr hmem rfl rfl, ← key_enqueue]
  split <;> rfl

theorem Ok.find_iff_key (h : c.Ok) : c.findNolock fs ino = some v ↔ c.key v = some (fs, ino) := by
  rw [h.find, Vcache.key]
  simp

theorem rekey_eq (he : c.entry v = some e) :
    c.rekey v ino = (c.bucketUnlink v).bucketPush v { e with ino } := by
  have hent : ∀ w, (if w = v then some { e with ino } else c.entry w) =
      if w = v then some { e with ino } else if w = v then none else c.entry w := fun w => by
    split <;> simp_all
  simp [rekey, he, bucketUnlink, bucketPush, setChain, setEntry, ← hent]

theorem Ok.rekey (h : c.Ok) (ino : Nat) (he : c.entry v = some e) (hv : v ∉ c.queue)
    (hf : ∀ {w}, w ≠ v → c.key w ≠ some (e.fs, ino)) : (c.rekey v ino).Ok ∧
      ∀ w, (c.rekey v ino).key w = if w = v then some (e.fs, ino) else c.key w := by
  have hu : e.unused = false := by
    by_contra hu
    exact hv (h.queued.2 ⟨e, he, by simpa using hu⟩)
  have h1 := h.bucketUnlink he hu
  rw [rekey_eq he]
  refine ⟨h1.bucketPush (by simp) hu ?_, fun w => ?_⟩
  · rw [← not_isSome_iff_eq_none, isSome_iff_exists]
    rintro ⟨w, hw⟩
    rw [h1.find_iff_key, key_bucketUnlink] at hw
    split at hw
    · cases hw
    · exact hf ‹_› hw
  · rw [key_bucketPush, key_bucketUnlink]
    split <;> simp_all

end Vcache
end Vex.Fs
