import Vex.Fs.Ext2Alloc

/-! What the bitmap functions of the ext2 allocator do. `find_clear_bit` and `scan_bitmap` find the
first clear bit of a range, `bitmap_take` takes a clear bit of its range if there is one, and
`bitmap_put` gives back a bit that is set. -/

namespace Vex.Fs.Ext2

open Lib Context

namespace Context

variable {c : Context} {off n : Nat} {buf : Bytes}

/-- The context with `n` bytes of `buf` written to the device at `off`. -/
def wrote (c : Context) (off n : Nat) (buf : Bytes) : Context :=
  { c with volume := { c.volume with bytes := blit c.volume.bytes off n buf } }

theorem devRead_ok (h : c.devRead off n = .ok buf) : buf = window c.volume.bytes off n := by
  rw [devRead] at h
  split at h
  · exact (Except.ok.inj h).symm
  · cases h

theorem devRead_of_le (h : off + n ≤ c.volume.size) :
    c.devRead off n = .ok (window c.volume.bytes off n) := if_pos h

theorem devWrite_ok (h : c.devWrite off n buf = .ok c') : c' = c.wrote off n buf := by
  rw [devWrite] at h
  split at h
  · exact (Except.ok.inj h).symm
  · cases h

theorem devWrite_of_le (h : off + n ≤ c.volume.size) :
    c.devWrite off n buf = .ok (c.wrote off n buf) := if_pos h

/-- The bit `k` of the bitmap in block `block`. -/
def bit (c : Context) (block k : Nat) : Bool := bitAt c.volume.bytes (c.blockOffset block) k

end Context

variable {c c' : Context} {bitmap : Bytes} {start limit fuel first offset block k : Nat}

/-! ## Scanning -/

theorem findClearLoop_some (h : findClearLoop bitmap limit fuel start = some k) :
    start ≤ k ∧ k < limit ∧ bitAt bitmap 0 k = false := by
  induction fuel generalizing start with
  | zero => cases h
  | succ fuel ih =>
    rw [findClearLoop] at h
    split at h
    case isFalse => cases h
    rename_i hlt
    dsimp only at h
    split at h
    case isTrue =>
      obtain ⟨hle, hk⟩ := ih h
      exact ⟨by omega, hk⟩
    split at h
    case isTrue hclr =>
      cases h
      exact ⟨Nat.le_refl _, hlt, by rw [bitAt, Nat.zero_add, hclr]⟩
    case isFalse =>
      obtain ⟨hle, hk⟩ := ih h
      exact ⟨by omega, hk⟩

/-- The bits skipped by a byte that is `0xFF` are set. -/
theorem bitAt_of_full (hbt : bitmap (start / 8) = 0xFF) (hsta : start % 8 = 0) (hle : start ≤ k)
    (hlt : k < start + 8) : bitAt bitmap 0 k = true := by
  have hdiv : k / 8 = start / 8 := by omega
  rw [bitAt, Nat.zero_add, hdiv, hbt, getBit_full (Nat.mod_lt _ (by decide))]

theorem findClearLoop_set (hfu : limit - start ≤ fuel) (hle : start ≤ k)
    (hlt : k < (findClearLoop bitmap limit fuel start).getD limit) : bitAt bitmap 0 k = true := by
  induction fuel generalizing start with
  | zero =>
    change k < limit at hlt
    omega
  | succ fuel ih =>
    rw [findClearLoop] at hlt
    split at hlt
    case isFalse =>
      change k < limit at hlt
      omega
    dsimp only at hlt
    split at hlt
    case isTrue hfl =>
      by_cases hk : k < start + 8
      · exact bitAt_of_full hfl.1 hfl.2 hle hk
      · exact ih (by omega) (by omega) hlt
    split at hlt
    case isTrue =>
      change k < start at hlt
      omega
    case isFalse hset =>
      by_cases hk : k = start
      · rw [hk, bitAt]
        simpa using hset
      · exact ih (by omega) (by omega) hlt

theorem bitAt_window (hk : k / 8 < n) :
    bitAt (window b (offset + firstByte) n) 0 k = bitAt b offset (firstByte * 8 + k) := by
  have hbt : offset + firstByte + k / 8 = offset + (firstByte * 8 + k) / 8 := by omega
  have hbit : (firstByte * 8 + k) % 8 = k % 8 := by omega
  rw [bitAt, bitAt, Nat.zero_add, window_of_lt hk, hbt, hbit]

theorem CHUNK_SIZE_pos : 0 < CHUNK_SIZE := by decide

theorem scanLoop_ok (h : scanLoop c offset limit fuel start = .ok k) :
    start ≤ k ∧ k < limit ∧ bitAt c.volume.bytes offset k = false := by
  induction fuel generalizing start with
  | zero => cases h
  | succ fuel ih =>
    rw [scanLoop] at h
    split at h
    case isFalse => cases h
    rename_i hlt
    have hsz := CHUNK_SIZE_pos
    obtain ⟨chunk, hrd, h⟩ := bind_eq_ok.mp h
    rw [devRead_ok hrd] at h
    split at h
    case h_1 found hfnd =>
      cases h
      obtain ⟨hle, hend, hclr⟩ := findClearLoop_some hfnd
      rw [bitAt_window (by omega)] at hclr
      exact ⟨by omega, by omega, hclr⟩
    case h_2 =>
      obtain ⟨hle, hk⟩ := ih h
      exact ⟨by omega, hk⟩

/-- In a chunk that was read from `start` up to `chunkEnd`, every bit before the one that is found
is set. -/
theorem chunk_set (hle : start ≤ k) (hend : k < chunkEnd)
    (hk : k - start / 8 * 8 < (findClearBit (window b (offset + start / 8)
      ((chunkEnd + 7) / 8 - start / 8)) (start - start / 8 * 8)
      (chunkEnd - start / 8 * 8)).getD (chunkEnd - start / 8 * 8)) : bitAt b offset k = true := by
  have hset := findClearLoop_set (Nat.le_refl _) (by omega) hk
  rwa [bitAt_window (by omega), Nat.add_sub_cancel' (by omega)] at hset

/-- A scan inside the device finds the first clear bit, and fails for want of one only. -/
theorem scanLoop_spec (hdev : offset + (limit + 7) / 8 ≤ c.volume.size)
    (hfu : limit - start ≤ fuel) :
    (∃ r, scanLoop c offset limit fuel start = .ok r ∧
      ∀ k, start ≤ k → k < r → bitAt c.volume.bytes offset k = true) ∨
    scanLoop c offset limit fuel start = .error .ENOSPC ∧
      ∀ k, start ≤ k → k < limit → bitAt c.volume.bytes offset k = true := by
  induction fuel generalizing start with
  | zero => exact .inr ⟨rfl, fun k hle hlt => by omega⟩
  | succ fuel ih =>
    rw [scanLoop]
    split
    case isFalse => exact .inr ⟨rfl, fun k hle hlt => by omega⟩
    rename_i hlt
    have hsz := CHUNK_SIZE_pos
    dsimp only
    rw [devRead_of_le (by omega)]
    simp only [bind, Except.bind]
    generalize hchk : min ((start / 8 + CHUNK_SIZE) * 8) limit = chunkEnd
    split
    case h_1 found hfnd =>
      have hend := (findClearLoop_some hfnd).2.1
      refine .inl ⟨_, rfl, fun k hle hk => ?_⟩
      have hin : k < chunkEnd := by omega
      refine chunk_set hle hin ?_
      rw [hfnd, Option.getD_some]
      omega
    rename_i hnone
    have hset : ∀ k, start ≤ k → k < chunkEnd → bitAt c.volume.bytes offset k = true := by
      refine fun k hle hk => chunk_set hle hk ?_
      rw [hnone, Option.getD_none]
      omega
    rcases ih (by omega : limit - chunkEnd ≤ fuel) with ⟨r, hr, hrs⟩ | ⟨hr, hrs⟩
    · refine .inl ⟨r, hr, fun k hle hk => ?_⟩
      exact (Nat.lt_or_ge k chunkEnd).elim (hset k hle) fun hge => hrs k hge hk
    · refine .inr ⟨hr, fun k hle hk => ?_⟩
      exact (Nat.lt_or_ge k chunkEnd).elim (hset k hle) fun hge => hrs k hge hk

theorem scanLoop_error (hdev : offset + (limit + 7) / 8 ≤ c.volume.size)
    (hfu : limit - start ≤ fuel) (h : scanLoop c offset limit fuel start = .error e) :
    e = .ENOSPC ∧ ∀ k, start ≤ k → k < limit → bitAt c.volume.bytes offset k = true := by
  rcases scanLoop_spec hdev hfu with ⟨r, hr, -⟩ | ⟨hr, hset⟩
  · rw [hr] at h
    cases h
  · rw [hr] at h
    cases h
    exact ⟨rfl, hset⟩

/-! ## Taking and putting back -/

/-- The context after bit `k` of the bitmap in `block` is set. -/
def Context.mark (c : Context) (block k : Nat) : Context :=
  c.wrote (c.blockOffset block + k / 8) 1 fun _ =>
    setBit (c.volume.bytes (c.blockOffset block + k / 8)) (k % 8)

/-- The context after bit `k` of the bitmap in `block` is cleared. -/
def Context.unmark (c : Context) (block k : Nat) : Context :=
  c.wrote (c.blockOffset block + k / 8) 1 fun _ =>
    unsetBit (c.volume.bytes (c.blockOffset block + k / 8)) (k % 8)

theorem scanWrapped_ok (h : scanWrapped c offset first start limit = .ok k) (hsta : first ≤ start)
    (hlim : start ≤ limit ∨ start = first) :
    first ≤ k ∧ k < limit ∧ bitAt c.volume.bytes offset k = false := by
  rw [scanWrapped] at h
  split at h
  · obtain ⟨hle, hlt, hclr⟩ := scanLoop_ok h
    exact ⟨hle, by omega, hclr⟩
  · obtain ⟨hle, hlt, hclr⟩ := scanLoop_ok h
    exact ⟨by omega, hlt, hclr⟩

theorem scanWrapped_error (h : scanWrapped c offset first start limit = .error e)
    (hdev : offset + (limit + 7) / 8 ≤ c.volume.size) (hsta : start ≤ limit) (hle : first ≤ k)
    (hlt : k < limit) : bitAt c.volume.bytes offset k = true := by
  rw [scanWrapped] at h
  split at h
  case h_1 hscan =>
    by_cases hk : start ≤ k
    · exact (scanLoop_error (by omega) (Nat.le_refl _) hscan).2 k hk hlt
    · exact (scanLoop_error (by omega) (Nat.le_refl _) h).2 k hle (by omega)
  case h_2 hne =>
    exact absurd ((scanLoop_error (by omega) (Nat.le_refl _) h).1 ▸ h) hne

theorem bitmapTake_ok (h : bitmapTake c block first start limit = .ok (k, c'))
    (hsta : first ≤ start) (hlim : start ≤ limit ∨ start = first) :
    first ≤ k ∧ k < limit ∧ c.bit block k = false ∧ c' = c.mark block k := by
  obtain ⟨k', hscan, h⟩ := bind_eq_ok.mp h
  obtain ⟨byte, hrd, h⟩ := bind_eq_ok.mp h
  obtain ⟨c1, hwr, ⟨⟩⟩ := bind_eq_ok.mp h
  obtain ⟨hle, hlt, hclr⟩ := scanWrapped_ok hscan hsta hlim
  refine ⟨hle, hlt, hclr, ?_⟩
  rw [devWrite_ok hwr, devRead_ok hrd]
  rfl

theorem bitmapTake_error (h : bitmapTake c block first start limit = .error e)
    (hdev : c.blockOffset block + (limit + 7) / 8 ≤ c.volume.size) (hsta : first ≤ start)
    (hlim : start ≤ limit) (hle : first ≤ k) (hlt : k < limit) : c.bit block k = true := by
  rw [bitmapTake] at h
  cases hscan : scanWrapped c (c.blockOffset block) first start limit with
  | error e' => exact scanWrapped_error hscan hdev hlim hle hlt
  | ok k' =>
    have hk := scanWrapped_ok hscan hsta (.inl hlim)
    rw [hscan] at h
    simp only [bind, Except.bind] at h
    rw [devRead_of_le (by omega)] at h
    dsimp only at h
    rw [devWrite_of_le (by omega)] at h
    cases h

theorem bitmapTake_le (hdev : c.blockOffset block + (limit + 7) / 8 ≤ c.volume.size)
    (hle : first ≤ k) (hlt : k < limit) (hclr : c.bit block k = false) :
    ∃ r ≤ k, bitmapTake c block first first limit = .ok (r, c.mark block r) := by
  rw [bit] at hclr
  rcases scanLoop_spec hdev (Nat.le_refl (limit - first)) with ⟨r, hr, hset⟩ | ⟨-, hset⟩
  · have hrk : r ≤ k := by
      by_contra hgt
      simp [hset k hle (by omega)] at hclr
    refine ⟨r, hrk, ?_⟩
    rw [bitmapTake, scanWrapped, scanBitmap, hr]
    simp only [bind, Except.bind]
    rw [devRead_of_le (by omega)]
    dsimp only
    rw [devWrite_of_le (by omega)]
    rfl
  · simp [hset k hle hlt] at hclr

theorem bitmapPut_of_set (hdev : c.blockOffset block + k / 8 < c.volume.size)
    (hset : c.bit block k = true) : bitmapPut c block k = .ok (c.unmark block k) := by
  have hbit : ¬getBit (c.volume.bytes (c.blockOffset block + k / 8)) (k % 8) = false := by
    rw [← bitAt, ← bit, hset]
    decide
  rw [bitmapPut, devRead_of_le hdev]
  simp only [bind, Except.bind]
  rw [window_of_lt Nat.one_pos, Nat.add_zero, if_neg hbit, devWrite_of_le hdev]
  rfl

theorem bitmapPut_ok (h : bitmapPut c block k = .ok c') :
    c.bit block k = true ∧ c' = c.unmark block k := by
  obtain ⟨byte, hrd, h⟩ := bind_eq_ok.mp h
  rw [devRead_ok hrd, window_of_lt Nat.one_pos] at h
  split at h
  · cases h
  · rename_i hset
    exact ⟨by simpa [bit, bitAt] using hset, devWrite_ok h⟩

end Vex.Fs.Ext2
