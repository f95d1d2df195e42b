import Mathlib.Algebra.GroupWithZero.Nat

/-! The clock: `time/clocksrc.c`. A counter is read as a `uint64_t`, and its ticks are turned into
nanoseconds by a factor and a shift. -/

namespace Vex.Time

def NSEC_PER_SEC : Nat := 1000000000

structure ClockSource where
  mask : Nat
  last : Nat
  base : Nat
  mult : Nat
  shift : Nat

def computeMultShift (source : ClockSource) (scale frequency : Nat) : ClockSource :=
  let freq := scale * frequency % 2 ^ 64
  -- the leading zeros of an `unsigned long long`
  let shift := 63 - NSEC_PER_SEC.log2
  { source with shift, mult := NSEC_PER_SEC * 2 ^ shift % 2 ^ 64 / freq }

/-- The ticks from the last update to a reading. -/
def ticks (mask last now : Nat) : Nat :=
  if now ≥ last then now - last else (mask + 2 ^ 64 - last + now + 1) % 2 ^ 64

/-- What an update over some ticks adds; the product of two `uint64_t` fits in a `uint128_t`. -/
def nsec (source : ClockSource) (delta : Nat) : Nat := (delta * source.mult) >>> source.shift

def updateNolock (active : Option ClockSource) (read : Nat) : Option ClockSource × Nat :=
  match active with
  | none => (none, 0)
  | some source =>
    let now := read &&& source.mask
    let base := (source.base + nsec source (ticks source.mask source.last now)) % 2 ^ 64
    (some { source with last := now, base }, base)

/-- The ticks that each update of a row is over. -/
def spans (mask : Nat) : (last : Nat) → (reads : List Nat) → List Nat
  | _, [] => []
  | last, read :: reads => ticks mask last (read &&& mask) :: spans mask (read &&& mask) reads

namespace ClockSource

variable (source : ClockSource) (reads : List Nat)

def spans : List Nat := Time.spans source.mask source.last reads

/-- The nanoseconds that a row of updates accumulates. -/
def accumulated : Nat := ((source.spans reads).map (nsec source)).sum

/-- The fractions of a nanosecond that a row of updates drops, in units of `2 ^ -shift`. -/
def dropped : Nat := ((source.spans reads).map (· * source.mult % 2 ^ source.shift)).sum

/-- The clock goes on by what a row of updates accumulates. -/
theorem updates_base :
    (reads.foldl (fun active read => (updateNolock active read).1) (some source)).map
        (·.base % 2 ^ 64) =
      some ((source.base + source.accumulated reads) % 2 ^ 64) := by
  induction reads generalizing source with
  | nil => rfl
  | cons read reads ih =>
    rw [List.foldl_cons, updateNolock, ih, accumulated, Nat.mod_add_mod, Nat.add_assoc]
    rfl

/-- What one update over all ticks of a row adds is what the row accumulates and the whole
nanoseconds it drops. -/
theorem nsec_spans : nsec source (source.spans reads).sum =
    source.accumulated reads + source.dropped reads / 2 ^ source.shift := by
  have hsum : ∀ l : List Nat, l.sum * source.mult = 2 ^ source.shift * (l.map (nsec source)).sum +
      (l.map (· * source.mult % 2 ^ source.shift)).sum := by
    intro l
    induction l with
    | nil => rw [List.sum_nil, Nat.zero_mul]; rfl
    | cons delta l ih =>
      have hdiv := Nat.div_add_mod (delta * source.mult) (2 ^ source.shift)
      simp only [List.map_cons, List.sum_cons, Nat.mul_add, Nat.add_mul, ih, nsec,
        Nat.shiftRight_eq_div_pow]
      omega
  rw [nsec, hsum, Nat.shiftRight_eq_div_pow, Nat.mul_add_div (Nat.two_pow_pos _)]
  rfl

end ClockSource

/-- A row of updates moves the clock on by what it accumulates, and this is at most a nanosecond
less than a single update over the span would add, if the row drops less than two nanoseconds. -/
theorem split_updates_iff (source : ClockSource) (scale frequency : Nat) (reads : List Nat) :
    let source := computeMultShift source scale frequency
    (reads.foldl (fun active read => (updateNolock active read).1) (some source)).map
        (·.base % 2 ^ 64) = some ((source.base + source.accumulated reads) % 2 ^ 64) ∧
    ((nsec source (source.spans reads).sum ≤ source.accumulated reads + 1 ∧
      source.accumulated reads ≤ nsec source (source.spans reads).sum + 1) ↔
    source.dropped reads < 2 * 2 ^ source.shift) := by
  intro source
  refine ⟨source.updates_base reads, ?_⟩
  rw [source.nsec_spans, ← Nat.div_lt_iff_lt_mul (Nat.two_pow_pos _)]
  generalize source.dropped reads / _ = lost
  omega

theorem each_read_drops_half :
    let source := computeMultShift ⟨2 ^ 64 - 1, 0, 0, 0, 0⟩ 1 2000000000
    ([1, 2, 3, 4].foldl (fun active read => (updateNolock active read).1) (some source)).map
        (·.base) = some 0 ∧
    source.accumulated [1, 2, 3, 4] = 0 ∧ nsec source (source.spans [1, 2, 3, 4]).sum = 2 := by
  decide +kernel

end Vex.Time
