import Vex.Fs.Dirents

/-! Changing a FAT entry in place. The calls that change the size, the first cluster or the times of
an entry read it by `fat_dirent_read`, which puts a leading 0xE5 back, and write what they read: an
entry whose stored name begins with the byte that stands for 0xE5 becomes a deleted one. -/

namespace Vex.Fs.Dirents

open Lib Function

abbrev accessDate : Field := ⟨18, 2⟩
abbrev firstClusterHi : Field := ⟨20, 2⟩
abbrev writeTime : Field := ⟨22, 2⟩
abbrev writeDate : Field := ⟨24, 2⟩
abbrev firstClusterLo : Field := ⟨26, 2⟩
abbrev fileSize : Field := ⟨28, 4⟩

/-- `fat_timestamp_t` as `fat_time_pack` fills it in. -/
structure FatTimestamp where
  date : Nat
  time : Nat

namespace RawEntry

/-- A slot with an entry that `fat_dirent_read` returns. -/
def Listed (e : RawEntry) : Prop :=
  e.first ≠ FAT_NAME_END ∧ e.first ≠ FAT_NAME_DELETED ∧
    e.attr &&& FAT_ATTR_LONG_NAME ≠ FAT_ATTR_LONG_NAME ∧ e.attr &&& FAT_ATTR_VOLUME_ID = 0

instance (e : RawEntry) : Decidable e.Listed := inferInstanceAs (Decidable (_ ∧ _))

/-- `entry->base`, as `fat_dirent_read` makes it of a slot. -/
def base (e : RawEntry) : RawEntry :=
  if e.first = FAT_NAME_ESCAPED_E5 then ⟨update e.bytes 0 FAT_NAME_DELETED⟩ else e

def store (e : RawEntry) (fields : List (Field × Nat)) : RawEntry :=
  ⟨fields.foldl (fun b f => f.1.put b f.2) e.bytes⟩

/-- The `memcmp` of two entries is 0. -/
def Same (e e' : RawEntry) : Prop := ∀ i < 32, e.bytes i = e'.bytes i

instance (e e' : RawEntry) : Decidable (Same e e') := inferInstanceAs (Decidable (∀ i < 32, _))

end RawEntry

/-- What `update_entry_locked` stores in the entry of a file. -/
def updatedFields (sizeBytes : Nat) (atime mtime : Option FatTimestamp) : List (Field × Nat) :=
  (fileSize, sizeBytes) :: (atime.toList.map fun stamp => (accessDate, stamp.date)) ++
    mtime.toList.flatMap fun stamp => [(writeDate, stamp.date), (writeTime, stamp.time)]

def clusterFields (cluster : Nat) : List (Field × Nat) :=
  [(firstClusterHi, cluster / 2 ^ 16), (firstClusterLo, cluster % 2 ^ 16)]

namespace FatDir

variable (d : FatDir)

/-- The base of the entry `fat_dirent_read` returns: it is the slot before the offset it leaves. -/
def direntBase (offset : Nat) : Except Errno RawEntry :=
  match d.direntRead .none (d.slots.length - offset) offset [] with
  | .error e => .error e
  | .ok (_, next) => (d.readEntry .none (next - 1)).map RawEntry.base

/-- Reads an entry, stores fields in it and writes it by `fat_dirent_update`; `changed` is for the
call that writes only an entry that has changed. -/
def rewrite (changed : Bool) (offset : Nat) (fields : List (Field × Nat)) : FatDir :=
  match d.direntBase offset with
  | .error _ => d
  | .ok base =>
    if changed ∧ (base.store fields).Same base then d
    else { d with slots := d.slots.set offset (base.store fields) }

/-- `update_entry_locked` for a file that has an entry. -/
def updateEntryLocked (offset sizeBytes : Nat) (atime mtime : Option FatTimestamp) : FatDir :=
  d.rewrite true offset (updatedFields sizeBytes atime mtime)

/-- `chain_cluster` where it gives a file its first cluster. -/
def chainCluster (offset newCluster : Nat) : FatDir :=
  d.rewrite false offset (clusterFields newCluster)

/-- The end of `shrink_locked`, with the first cluster that is left. -/
def shrinkLocked (offset size firstCluster : Nat) : FatDir :=
  d.rewrite false offset ((fileSize, size) :: clusterFields firstCluster)

/-- The names `fat_dirent_read` gives from an offset on. -/
def fullNamesFrom : (fuel offset : Nat) → List (List UInt8)
  | 0, _ => []
  | fuel + 1, offset =>
    match d.direntRead .none (d.slots.length - offset) offset [] with
    | .error _ => []
    | .ok (entry, next) => entry.fullName :: fullNamesFrom fuel next

/-- The names in the directory, which are no more than its slots. -/
def fullNames : List (List UInt8) := d.fullNamesFrom d.slots.length 0

/-- The names in the directory are the same, and the slot differs at most in the bytes from 13 on:
the size, the first cluster and the times. -/
structure NameKept (d d' : FatDir) (offset : Nat) : Prop where
  names : d'.fullNames = d.fullNames
  slot : ∀ raw ∈ d.slots[offset]?, ∃ raw' ∈ d'.slots[offset]?, ∀ i < 13, raw'.bytes i = raw.bytes i

end FatDir

variable {d : FatDir} {raw raw' e e' : RawEntry} {fields : List (Field × Nat)} {k i : Nat}

namespace RawEntry

theorem store_congr (h : e.bytes i = e'.bytes i) :
    (e.store fields).bytes i = (e'.store fields).bytes i := by
  induction fields generalizing e e' with
  | nil => exact h
  | cons f fields ih =>
    refine @ih ⟨f.1.put e.bytes f.2⟩ ⟨f.1.put e'.bytes f.2⟩ ?_
    simp [Field.put, putLe, blit, h]

theorem store_of_lt (hfld : ∀ f ∈ fields, i < f.1.offset) :
    (e.store fields).bytes i = e.bytes i := by
  induction fields generalizing e with
  | nil => rfl
  | cons f fields ih =>
    obtain ⟨hf, hfld⟩ := List.forall_mem_cons.mp hfld
    exact (@ih ⟨_⟩ hfld).trans (blit_of_not_mem (.inl hf))

theorem base_bytes (hi : i ≠ 0) : e.base.bytes i = e.bytes i := by
  rw [base]
  split
  case isTrue => exact update_of_ne hi ..
  case isFalse => rfl

theorem same_base_iff (hfld : ∀ f ∈ fields, 0 < f.1.offset) :
    (e.base.store fields).Same e.base ↔ (e.store fields).Same e := by
  refine forall₂_congr fun i _ => ?_
  rcases eq_or_ne i 0 with rfl | hi
  · rw [store_of_lt hfld, store_of_lt hfld]
    exact iff_of_true rfl rfl
  · rw [store_congr (base_bytes hi), base_bytes hi]

end RawEntry

namespace FatDir

section
variable (hraw : d.slots[k]? = some raw) (hlisted : raw.Listed)
include hraw hlisted

theorem direntRead_listed (fuel : Nat) (ldirs : List RawEntry) :
    d.direntRead .none (fuel + 1) k ldirs = .ok (raw.toDirent ldirs, k + 1) := by
  obtain ⟨hend, hdeleted, hlg, hvol⟩ := hlisted
  have hrd : d.readEntry .none k = .ok raw := by simp [readEntry, hraw, Io.none]
  rw [direntRead, hrd]
  simp [hend, hdeleted, hlg, hvol]

theorem direntBase_eq : d.direntBase k = .ok raw.base := by
  have hlt := (List.getElem?_eq_some_iff.mp hraw).1
  obtain ⟨fuel, hfu⟩ := Nat.exists_eq_succ_of_ne_zero (Nat.sub_ne_zero_of_lt hlt)
  rw [direntBase, hfu, direntRead_listed hraw hlisted]
  simp [readEntry, hraw, Io.none, Except.map]

/-- The entry is replaced by one with the same name and attributes. -/
theorem direntRead_set (hby : ∀ i < 13, raw'.bytes i = raw.bytes i) (fuel offset : Nat)
    (ldirs : List RawEntry) :
    direntRead { d with slots := d.slots.set k raw' } .none fuel offset ldirs =
      d.direntRead .none fuel offset ldirs := by
  induction fuel generalizing offset ldirs with
  | zero => rfl
  | succ fuel ih =>
    rcases eq_or_ne k offset with rfl | hne
    · have hfst : raw'.first = raw.first := hby 0 (by decide)
      have hattr : raw'.attr = raw.attr := hby 11 (by decide)
      have hsh : raw'.shortBytes = raw.shortBytes := by
        rw [RawEntry.shortBytes, hfst]
        refine congrArg _ (List.map_congr_left fun i hi => hby _ ?_)
        have := List.mem_range.mp hi
        omega
      have hset : (d.slots.set k raw')[k]? = some raw' := by
        simp [(List.getElem?_eq_some_iff.mp hraw).1]
      rw [direntRead_listed hraw hlisted, direntRead_listed hset
        (by rwa [RawEntry.Listed, hfst, hattr]), RawEntry.toDirent, hattr, hsh]
      rfl
    · rw [direntRead, direntRead]
      simp [readEntry, List.getElem?_set_ne hne, ih]

theorem NameKept.set (hby : ∀ i < 13, raw'.bytes i = raw.bytes i) :
    NameKept d { d with slots := d.slots.set k raw' } k where
  names := by
    have hnms : ∀ fuel offset, fullNamesFrom { d with slots := d.slots.set k raw' } fuel offset =
        d.fullNamesFrom fuel offset := fun fuel => by
      induction fuel with
      | zero => exact fun _ => rfl
      | succ fuel ih =>
        intro offset
        simp [fullNamesFrom, List.length_set, direntRead_set hraw hlisted hby, ih]
    rw [fullNames, hnms, List.length_set, fullNames]
  slot := by
    have hlt := (List.getElem?_eq_some_iff.mp hraw).1
    rw [hraw]
    rintro _ ⟨⟩
    exact ⟨raw', by simp [hlt], hby⟩

theorem rewrite_kept_iff (changed : Bool) (hfld : ∀ f ∈ fields, 13 ≤ f.1.offset) :
    NameKept d (d.rewrite changed k fields) k ↔
      (raw.first = FAT_NAME_ESCAPED_E5 → changed ∧ (raw.store fields).Same raw) := by
  have hlow : ∀ i < 13, (raw.base.store fields).bytes i = raw.base.bytes i := fun i hi =>
    RawEntry.store_of_lt fun f hf => hi.trans_le (hfld f hf)
  simp only [rewrite, direntBase_eq hraw hlisted,
    RawEntry.same_base_iff fun f hf => Nat.lt_of_lt_of_le (by decide) (hfld f hf)]
  split
  case isTrue hsame => exact iff_of_true ⟨rfl, fun raw h => ⟨raw, h, fun _ _ => rfl⟩⟩ fun _ => hsame
  rename_i hwrn
  rcases eq_or_ne raw.first FAT_NAME_ESCAPED_E5 with hfst | hfst
  · refine iff_of_false (fun h => ?_) fun h => hwrn (h hfst)
    obtain ⟨raw', hraw', hby⟩ := h.slot raw hraw
    have hlt := (List.getElem?_eq_some_iff.mp hraw).1
    obtain rfl : raw.base.store fields = raw' := by simpa [hlt] using hraw'
    -- the byte that marks a deleted entry has taken its place
    have h0 : raw.base.bytes 0 = FAT_NAME_DELETED := by
      rw [RawEntry.base, if_pos hfst]
      exact update_self 0 _ raw.bytes
    rw [← hlow 0 (by decide), hby 0 (by decide)] at h0
    exact absurd (hfst.symm.trans h0) (by decide)
  · refine iff_of_true (.set hraw hlisted ?_) fun h => absurd h hfst
    rwa [RawEntry.base, if_neg hfst] at hlow ⊢

/-- **An update of an entry keeps its name** if the stored one does not begin with the byte that
stands for 0xE5, or if nothing changes and the call looks. -/
theorem entry_update_kept_iff :
    (∀ size atime mtime, NameKept d (d.updateEntryLocked k size atime mtime) k ↔
      (raw.first = FAT_NAME_ESCAPED_E5 → (raw.store (updatedFields size atime mtime)).Same raw)) ∧
    (∀ cluster, NameKept d (d.chainCluster k cluster) k ↔ raw.first ≠ FAT_NAME_ESCAPED_E5) ∧
    ∀ size cluster, NameKept d (d.shrinkLocked k size cluster) k ↔
      raw.first ≠ FAT_NAME_ESCAPED_E5 := by
  refine ⟨fun size atime mtime => ?_, fun cluster => ?_, fun size cluster => ?_⟩
  · refine (rewrite_kept_iff hraw hlisted true ?_).trans (by simp)
    cases atime <;> cases mtime <;> simp [updatedFields]
  · exact (rewrite_kept_iff hraw hlisted false (by simp [clusterFields])).trans (by simp)
  · exact (rewrite_kept_iff hraw hlisted false (by simp [clusterFields])).trans (by simp)

end

/-- A directory with one file, whose name begins with the given byte. -/
def oneFile (first : UInt8) : FatDir where
  slots := [⟨fun i => if i = 0 then first else if i = 11 then 0 else 97⟩]
  firstEntries := 16
  nodenumber := id
  ino := 1
  parent := 1

theorem entry_update_kept_iff_plain : NameKept (oneFile 97) ((oneFile 97).chainCluster 0 5) 0 :=
  ((entry_update_kept_iff rfl (by decide)).2.1 5).mpr (by decide)

/-- A file gets its first cluster and is gone. -/
theorem escaped_name_deleted : ((oneFile 5).chainCluster 0 5).fullNames = [] ∧
    ¬NameKept (oneFile 5) ((oneFile 5).chainCluster 0 5) 0 :=
  ⟨by decide +kernel, fun h => absurd h.names (by decide +kernel)⟩

end FatDir

end Vex.Fs.Dirents
