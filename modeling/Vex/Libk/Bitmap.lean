import Mathlib.Order.Interval.Set.Basic
import Mathlib.Tactic.Common

/-! Bitmaps: `libk/bitmap.c`. Bits are stored from the most significant bit of a chunk on, and the
functions on ranges work with a mask at both ends and with whole chunks in between. -/

namespace Vex.Libk

open Function BitVec

abbrev BITMAP_CHUNK_BITS : Nat := 32

/-- `bitmap_t` in memory, by index. -/
abbrev Bitmap := Nat → BitVec 32

def BITMAP_MASK_CLEAR : BitVec 32 := 0x00000000
def BITMAP_MASK_SET : BitVec 32 := 0xFFFFFFFF

def bitmapBit (bit : Nat) : BitVec 32 := 1#32 <<< bit

def bitmapIsset (bitmap : Bitmap) (bit : Nat) : Bool :=
  let bdiv := bit / BITMAP_CHUNK_BITS
  let bmod := bit % BITMAP_CHUNK_BITS
  bitmap bdiv &&& bitmapBit (BITMAP_CHUNK_BITS - bmod - 1) != 0

/-- The chunk positions from `bitmod` on. -/
def maskFrom (bitmod : Nat) : BitVec 32 := BITMAP_MASK_SET >>> bitmod

/-- The chunk positions up to `bitmod`. -/
def maskUpto (bitmod : Nat) : BitVec 32 := BITMAP_MASK_SET <<< (BITMAP_CHUNK_BITS - 1 - bitmod)

/-- The loop over `left` chunks. -/
def fillChunks (value : BitVec 32) : (left i : Nat) → Bitmap → Bitmap
  | 0, _, bitmap => bitmap
  | left + 1, i, bitmap => fillChunks value left (i + 1) (update bitmap i value)

/-- The functions that change a range, by what they do to the bits of a mask and what they store
to a whole chunk. -/
def bitmapRangeChange (change : BitVec 32 → BitVec 32 → BitVec 32) (value : BitVec 32)
    (bitmap : Bitmap) (bitA bitB : Nat) : Bitmap :=
  let idxA := bitA / BITMAP_CHUNK_BITS
  let idxB := bitB / BITMAP_CHUNK_BITS
  let maskA := maskFrom (bitA % BITMAP_CHUNK_BITS)
  let maskB := maskUpto (bitB % BITMAP_CHUNK_BITS)
  if idxA = idxB then update bitmap idxA (change (bitmap idxA) (maskA &&& maskB))
  else
    let bitmap := update bitmap idxA (change (bitmap idxA) maskA)
    let bitmap := fillChunks value (idxB - (idxA + 1)) (idxA + 1) bitmap
    update bitmap idxB (change (bitmap idxB) maskB)

def bitmapRangeClear : Bitmap → Nat → Nat → Bitmap :=
  bitmapRangeChange (fun chunk mask => chunk &&& ~~~mask) BITMAP_MASK_CLEAR

def bitmapRangeSet : Bitmap → Nat → Nat → Bitmap :=
  bitmapRangeChange (fun chunk mask => chunk ||| mask) BITMAP_MASK_SET

/-- The functions that look at a range, by what they ask of the bits of a mask and of a whole
chunk. -/
def bitmapRangeTest (test : BitVec 32 → BitVec 32 → Bool) (value : BitVec 32) (bitmap : Bitmap)
    (bitA bitB : Nat) : Bool :=
  let idxA := bitA / BITMAP_CHUNK_BITS
  let idxB := bitB / BITMAP_CHUNK_BITS
  let maskA := maskFrom (bitA % BITMAP_CHUNK_BITS)
  let maskB := maskUpto (bitB % BITMAP_CHUNK_BITS)
  let maskA' := if idxA = idxB then maskA &&& maskB else maskA
  let maskB' := if idxA = idxB then maskA' else maskB
  test (bitmap idxA) maskA' &&
    (List.range' (idxA + 1) (idxB - (idxA + 1))).all (fun i => bitmap i == value) &&
    test (bitmap idxB) maskB'

def bitmapRangeIsset : Bitmap → Nat → Nat → Bool :=
  bitmapRangeTest (fun chunk mask => chunk &&& mask == mask) BITMAP_MASK_SET

def bitmapRangeIsclear : Bitmap → Nat → Nat → Bool :=
  bitmapRangeTest (fun chunk mask => chunk &&& mask == 0#32) BITMAP_MASK_CLEAR

/-- The words that hold a range. -/
def rangeWords (bitA bitB : Nat) : Set Nat :=
  Set.Icc (bitA / BITMAP_CHUNK_BITS) (bitB / BITMAP_CHUNK_BITS)

variable {bitmap : Bitmap} {i j left n bitA bitB : Nat}

theorem bitmapIsset_eq (bitmap : Bitmap) (bit : Nat) :
    bitmapIsset bitmap bit =
      (bitmap (bit / BITMAP_CHUNK_BITS)).getMsbD (bit % BITMAP_CHUNK_BITS) := by
  have hlt : bit % BITMAP_CHUNK_BITS < 32 := Nat.mod_lt _ (by decide)
  have hpow : ∀ k : Fin 32, bitmapBit (32 - k - 1) = twoPow 32 (32 - 1 - k) ∧
      twoPow 32 (32 - 1 - k) ≠ 0 := by decide +kernel
  obtain ⟨hbit, hne⟩ := hpow ⟨_, hlt⟩
  rw [bitmapIsset, hbit, and_twoPow, getMsbD, decide_eq_true hlt]
  cases (bitmap (bit / BITMAP_CHUNK_BITS)).getLsbD (32 - 1 - bit % BITMAP_CHUNK_BITS) with
  | true => exact bne_iff_ne.mpr hne
  | false => rfl

theorem getMsbD_maskFrom (hi : i < 32) (hj : j < 32) :
    (maskFrom i).getMsbD j = decide (i ≤ j) := by
  have h : ∀ i j : Fin 32, (maskFrom i).getMsbD j = decide (i.1 ≤ j.1) := by decide +kernel
  exact h ⟨i, hi⟩ ⟨j, hj⟩

theorem getMsbD_maskUpto (hi : i < 32) (hj : j < 32) :
    (maskUpto i).getMsbD j = decide (j ≤ i) := by
  have h : ∀ i j : Fin 32, (maskUpto i).getMsbD j = decide (j.1 ≤ i.1) := by decide +kernel
  exact h ⟨i, hi⟩ ⟨j, hj⟩

theorem fillChunks_apply (value : BitVec 32) (left i : Nat) (bitmap : Bitmap) (j : Nat) :
    fillChunks value left i bitmap j = if i ≤ j ∧ j < i + left then value else bitmap j := by
  induction left generalizing i bitmap with
  | zero => rw [fillChunks, if_neg (by omega)]
  | succ left ih =>
    rw [fillChunks, ih, update_apply]
    by_cases heq : j = i
    · rw [if_neg (by omega), if_pos heq, if_pos (by omega)]
    · rw [if_neg heq]
      exact if_congr (by omega) rfl rfl

section Range

variable {change : BitVec 32 → BitVec 32 → BitVec 32} {value : BitVec 32} {v : Bool}

/-- A function on a range changes the bits of the range, both ends included, and no other. -/
theorem bitmapIsset_rangeChange
    (hchg : ∀ chunk mask k, k < 32 → (change chunk mask).getMsbD k =
      if mask.getMsbD k then v else chunk.getMsbD k)
    (hval : ∀ k < 32, value.getMsbD k = v) (hle : bitA ≤ bitB) (bitmap : Bitmap) (n : Nat) :
    bitmapIsset (bitmapRangeChange change value bitmap bitA bitB) n =
      if bitA ≤ n ∧ n ≤ bitB then v else bitmapIsset bitmap n := by
  have hlt : ∀ k, k % BITMAP_CHUNK_BITS < 32 := fun k => Nat.mod_lt _ (by decide)
  have hspl : ∀ k, 32 * (k / BITMAP_CHUNK_BITS) + k % BITMAP_CHUNK_BITS = k :=
    fun k => Nat.div_add_mod k 32
  have hn := hspl n
  have hA := hspl bitA
  have hB := hspl bitB
  have hmod := hlt n
  have hmodA := hlt bitA
  have hmodB := hlt bitB
  rw [bitmapIsset_eq, bitmapIsset_eq, bitmapRangeChange]
  generalize n / BITMAP_CHUNK_BITS = d at *
  generalize bitA / BITMAP_CHUNK_BITS = idxA at *
  generalize bitB / BITMAP_CHUNK_BITS = idxB at *
  split
  case isTrue heq =>
    rw [update_apply]
    split
    case isTrue hd =>
      rw [hchg _ _ _ hmod, getMsbD_and, getMsbD_maskFrom hmodA hmod,
        getMsbD_maskUpto hmodB hmod, hd]
      refine if_congr ?_ rfl rfl
      simp only [Bool.and_eq_true, decide_eq_true_eq]
      omega
    case isFalse hd => rw [if_neg (by omega)]
  rename_i hne
  simp only [update_apply, fillChunks_apply]
  by_cases hdB : d = idxB
  · rw [if_pos hdB, hchg _ _ _ hmod, getMsbD_maskUpto hmodB hmod, hdB,
      if_neg (show ¬(idxA + 1 ≤ idxB ∧ idxB < idxA + 1 + (idxB - (idxA + 1))) by omega),
      if_neg (Ne.symm hne)]
    exact if_congr (by rw [decide_eq_true_eq]; omega) rfl rfl
  rw [if_neg hdB]
  by_cases hdA : d = idxA
  · rw [if_neg (by omega), if_pos hdA, hchg _ _ _ hmod, getMsbD_maskFrom hmodA hmod, hdA]
    exact if_congr (by rw [decide_eq_true_eq]; omega) rfl rfl
  rw [if_neg hdA]
  by_cases hin : idxA + 1 ≤ d ∧ d < idxA + 1 + (idxB - (idxA + 1))
  · rw [if_pos hin, hval _ hmod, if_pos (by omega)]
  · rw [if_neg hin, if_neg (by omega)]

end Range

theorem bitmapIsset_rangeSet (hle : bitA ≤ bitB) (bitmap : Bitmap) (n : Nat) :
    bitmapIsset (bitmapRangeSet bitmap bitA bitB) n =
      if bitA ≤ n ∧ n ≤ bitB then true else bitmapIsset bitmap n := by
  refine bitmapIsset_rangeChange (fun chunk mask k _ => ?_) (by decide) hle bitmap n
  rw [getMsbD_or]
  cases mask.getMsbD k <;> simp

theorem bitmapIsset_rangeClear (hle : bitA ≤ bitB) (bitmap : Bitmap) (n : Nat) :
    bitmapIsset (bitmapRangeClear bitmap bitA bitB) n =
      if bitA ≤ n ∧ n ≤ bitB then false else bitmapIsset bitmap n := by
  refine bitmapIsset_rangeChange (fun chunk mask k hk => ?_) (by decide) hle bitmap n
  rw [getMsbD_and, getMsbD_not, decide_eq_true hk]
  cases mask.getMsbD k <;> simp

/-- A function that looks at a range tells whether all of its bits have the value. -/
theorem bitmapRangeTest_iff {test : BitVec 32 → BitVec 32 → Bool} {value : BitVec 32} {v : Bool}
    (htest : ∀ chunk mask, test chunk mask ↔
      ∀ k < 32, mask.getMsbD k = true → chunk.getMsbD k = v)
    (hval : ∀ k < 32, value.getMsbD k = v) (hle : bitA ≤ bitB) :
    bitmapRangeTest test value bitmap bitA bitB ↔
      ∀ n, bitA ≤ n → n ≤ bitB → bitmapIsset bitmap n = v := by
  have hwho : ∀ chunk, chunk = value ↔ ∀ k < 32, chunk.getMsbD k = v := fun chunk =>
    ⟨fun h => h ▸ hval, fun h => eq_of_getMsbD_eq fun k hk => (h k hk).trans (hval k hk).symm⟩
  have hspl : (∀ n, bitA ≤ n → n ≤ bitB → bitmapIsset bitmap n = v) ↔ ∀ d, ∀ k < 32,
      bitA ≤ 32 * d + k → 32 * d + k ≤ bitB → (bitmap d).getMsbD k = v := by
    constructor
    · intro h d k hk hA hB
      have hbit := h _ hA hB
      rwa [bitmapIsset_eq, Nat.mul_add_div (by decide), Nat.mul_add_mod,
        Nat.div_eq_of_lt hk, Nat.mod_eq_of_lt hk] at hbit
    · intro h n hA hB
      rw [← Nat.div_add_mod n 32] at hA hB
      rw [bitmapIsset_eq]
      exact h _ _ (Nat.mod_lt _ (by decide)) hA hB
  have hA := Nat.div_add_mod bitA 32
  have hB := Nat.div_add_mod bitB 32
  have hmodA := Nat.mod_lt bitA (show 32 > 0 by decide)
  have hmodB := Nat.mod_lt bitB (show 32 > 0 by decide)
  simp only [hspl, bitmapRangeTest, Bool.and_eq_true, htest, List.all_eq_true, beq_iff_eq,
    hwho, List.mem_range'_1]
  have hfrom : ∀ k < 32, (maskFrom (bitA % 32)).getMsbD k = decide (bitA % 32 ≤ k) :=
    fun k => getMsbD_maskFrom hmodA
  have hupto : ∀ k < 32, (maskUpto (bitB % 32)).getMsbD k = decide (k ≤ bitB % 32) :=
    fun k => getMsbD_maskUpto hmodB
  generalize bitA / 32 = idxA at *
  generalize bitB / 32 = idxB at *
  by_cases heq : idxA = idxB
  · subst heq
    simp +contextual only [if_true, getMsbD_and, hfrom, hupto, Bool.and_eq_true, decide_eq_true_eq]
    constructor
    · intro h d k hk hn hn'
      obtain rfl : d = idxA := by omega
      exact h.2 k hk (by omega)
    · exact fun h => ⟨⟨fun k hk hin => h _ k hk (by omega) (by omega), fun i hi => by omega⟩,
        fun k hk hin => h _ k hk (by omega) (by omega)⟩
  · simp +contextual only [if_neg heq, hfrom, hupto, decide_eq_true_eq]
    constructor
    · intro ⟨⟨hfst, hmid⟩, hlast⟩ d k hk hn hn'
      by_cases hdA : d = idxA
      · exact hdA ▸ hfst k hk (by omega)
      by_cases hdB : d = idxB
      · exact hdB ▸ hlast k hk (by omega)
      · exact hmid d (by omega) k hk
    · exact fun h => ⟨⟨fun k hk hin => h _ k hk (by omega) (by omega),
        fun i hi k hk => h _ k hk (by omega) (by omega)⟩,
        fun k hk hin => h _ k hk (by omega) (by omega)⟩

theorem bitmapRangeIsset_iff (hle : bitA ≤ bitB) : bitmapRangeIsset bitmap bitA bitB ↔
    ∀ n, bitA ≤ n → n ≤ bitB → bitmapIsset bitmap n = true := by
  refine bitmapRangeTest_iff (fun chunk mask => ?_) (by decide) hle
  rw [beq_iff_eq]
  constructor
  · intro h k _ hmk
    rw [← hmk, ← h, getMsbD_and, hmk, Bool.and_true]
  · refine fun h => eq_of_getMsbD_eq fun k hk => ?_
    rw [getMsbD_and]
    cases hmk : mask.getMsbD k with
    | false => rw [Bool.and_false]
    | true => rw [h k hk hmk, Bool.and_true]

theorem bitmapRangeIsclear_iff (hle : bitA ≤ bitB) : bitmapRangeIsclear bitmap bitA bitB ↔
    ∀ n, bitA ≤ n → n ≤ bitB → bitmapIsset bitmap n = false := by
  refine bitmapRangeTest_iff (fun chunk mask => ?_) (by decide) hle
  rw [beq_iff_eq]
  constructor
  · intro h k _ hmk
    rw [← Bool.and_true (chunk.getMsbD k), ← hmk, ← getMsbD_and, h, getMsbD_zero]
  · refine fun h => eq_of_getMsbD_eq fun k hk => ?_
    rw [getMsbD_and, getMsbD_zero]
    cases hmk : mask.getMsbD k with
    | false => rw [Bool.and_false]
    | true => rw [h k hk hmk, Bool.false_and]

/-- A bit depends on the word that holds it only. -/
theorem bitmapIsset_congr {other : Bitmap} (h : other (n / 32) = bitmap (n / 32)) :
    bitmapIsset other n = bitmapIsset bitmap n := by
  rw [bitmapIsset_eq, bitmapIsset_eq, h]

/-- A word is its bits. -/
theorem word_eq {other : Bitmap}
    (h : ∀ n, n / 32 = i → bitmapIsset other n = bitmapIsset bitmap n) : other i = bitmap i := by
  refine eq_of_getMsbD_eq fun k hk => ?_
  have hbit := h (32 * i + k) (by omega)
  rwa [bitmapIsset_eq, bitmapIsset_eq, Nat.mul_add_div (by decide), Nat.mul_add_mod,
    Nat.div_eq_of_lt hk, Nat.mod_eq_of_lt hk] at hbit

/-- What a function that changes the bits of a range reads and writes. -/
theorem words_rangeChange {change : Bitmap → Nat → Nat → Bitmap} {v : Bool}
    (hchg : ∀ bitmap n, bitmapIsset (change bitmap bitA bitB) n =
      if bitA ≤ n ∧ n ≤ bitB then v else bitmapIsset bitmap n) :
    Set.EqOn (change bitmap bitA bitB) bitmap (rangeWords bitA bitB)ᶜ ∧
      ∀ other, Set.EqOn other bitmap (rangeWords bitA bitB) →
        Set.EqOn (change other bitA bitB) (change bitmap bitA bitB) (rangeWords bitA bitB) := by
  constructor
  · refine fun i hi => word_eq fun n hn => ?_
    rw [hchg, if_neg]
    exact fun hin => hi (hn ▸ ⟨Nat.div_le_div_right hin.1, Nat.div_le_div_right hin.2⟩)
  · refine fun other heq i hi => word_eq fun n hn => ?_
    rw [hchg, hchg, bitmapIsset_congr (heq (hn ▸ hi))]

/-- The bits of a range, both ends included, are what the functions on ranges set, clear and look
at, and they read and write the words that hold the range only. -/
theorem bitmap_ranges_exact (hle : bitA ≤ bitB) (bitmap : Bitmap) :
    (∀ n, bitmapIsset (bitmapRangeSet bitmap bitA bitB) n =
      if bitA ≤ n ∧ n ≤ bitB then true else bitmapIsset bitmap n) ∧
    (∀ n, bitmapIsset (bitmapRangeClear bitmap bitA bitB) n =
      if bitA ≤ n ∧ n ≤ bitB then false else bitmapIsset bitmap n) ∧
    (bitmapRangeIsset bitmap bitA bitB ↔
      ∀ n, bitA ≤ n → n ≤ bitB → bitmapIsset bitmap n = true) ∧
    (bitmapRangeIsclear bitmap bitA bitB ↔
      ∀ n, bitA ≤ n → n ≤ bitB → bitmapIsset bitmap n = false) ∧
    (∀ change ∈ [bitmapRangeSet, bitmapRangeClear],
      Set.EqOn (change bitmap bitA bitB) bitmap (rangeWords bitA bitB)ᶜ ∧
      ∀ other, Set.EqOn other bitmap (rangeWords bitA bitB) →
        Set.EqOn (change other bitA bitB) (change bitmap bitA bitB) (rangeWords bitA bitB)) ∧
    ∀ test ∈ [bitmapRangeIsset, bitmapRangeIsclear],
      ∀ other, Set.EqOn other bitmap (rangeWords bitA bitB) →
        test other bitA bitB = test bitmap bitA bitB := by
  refine ⟨bitmapIsset_rangeSet hle bitmap, bitmapIsset_rangeClear hle bitmap,
    bitmapRangeIsset_iff hle, bitmapRangeIsclear_iff hle, ?_, ?_⟩
  · rintro change (_ | ⟨_, _ | ⟨_, ⟨⟩⟩⟩)
    · exact words_rangeChange (bitmapIsset_rangeSet hle)
    · exact words_rangeChange (bitmapIsset_rangeClear hle)
  · intro test hmem other heq
    have hbits : ∀ n, bitA ≤ n → n ≤ bitB → bitmapIsset other n = bitmapIsset bitmap n :=
      fun n hA hB => bitmapIsset_congr (heq ⟨Nat.div_le_div_right hA, Nat.div_le_div_right hB⟩)
    rw [Bool.eq_iff_iff]
    obtain _ | ⟨_, _ | ⟨_, ⟨⟩⟩⟩ := hmem
    · simp +contextual only [bitmapRangeIsset_iff hle, hbits]
    · simp +contextual only [bitmapRangeIsclear_iff hle, hbits]

theorem bitmap_range_over_three_words : 5 ≤ 70 ∧ ∀ n,
    bitmapIsset (bitmapRangeSet (fun _ => BITMAP_MASK_CLEAR) 5 70) n =
      if 5 ≤ n ∧ n ≤ 70 then true else bitmapIsset (fun _ => BITMAP_MASK_CLEAR) n :=
  ⟨by decide, (bitmap_ranges_exact (by decide) _).1⟩

end Vex.Libk
