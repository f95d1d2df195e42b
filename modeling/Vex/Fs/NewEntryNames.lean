import Vex.Fs.PathParent

/-! The entries of new files, directories and links are named as their paths say, and the calls
that can be made to break this. -/

namespace Vex.Fs.NewEntry

open Volumes Outcome List NewEntry.Driver

/-! ## Names on the volume -/

/-- The long name entries hold the name, then a terminator and filler if there is room. -/
theorem longName_eq (name : Name) :
    ∃ extra, longName name = (name.take NAME_MAX).map UInt8.toNat ++
      (range extra).map fun pos => if pos = 0 then 0x0000 else 0xFFFF := by
  set length := min name.length NAME_MAX with hlen
  have hfits : length ≤ 13 * ((length + 12) / 13) := by omega
  obtain ⟨extra, hextra⟩ := Nat.exists_eq_add_of_le hfits
  refine ⟨extra, ?_⟩
  rw [longName, ← hlen, hextra, range_add, map_append]
  congr 1
  · apply ext_getElem
    · simp [hlen, Nat.min_comm]
    intro pos hpos _
    have hlt : pos < length := by simpa using hpos
    have hnm : pos < name.length := by omega
    simp [hlt, hnm]
  · simp

theorem readLongName_longName (h : 0 ∉ name) :
    readLongName (longName name) = name.take NAME_MAX := by
  obtain ⟨extra, hrd⟩ := longName_eq name
  have hchars : ∀ ch ∈ (name.take NAME_MAX).map UInt8.toNat,
      decide (ch ≠ 0x0000 ∧ ch ≠ 0xFFFF) = true := by
    intro ch hch
    obtain ⟨b, hb, rfl⟩ := mem_map.mp hch
    have hz : b ≠ 0 := fun hb0 => h (hb0 ▸ mem_of_mem_take hb)
    have hlt := b.toNat_lt
    have hpos : b.toNat ≠ 0 := fun h0 => hz (UInt8.toNat_inj.mp h0)
    exact decide_eq_true ⟨hpos, by omega⟩
  have hend : ((range extra).map (fun pos => if pos = 0 then 0x0000 else 0xFFFF)).takeWhile
      (fun ch => decide (ch ≠ 0x0000 ∧ ch ≠ 0xFFFF)) = [] := by
    cases extra with
    | zero => rfl
    | succ extra => simp
  have hlen : ((name.take NAME_MAX).map UInt8.toNat).length ≤ NAME_MAX := by
    rw [length_map]
    exact length_take_le _ _
  rw [readLongName, hrd, takeWhile_append_of_pos hchars, hend, append_nil,
    take_of_length_le hlen, map_map]
  conv_rhs => rw [← map_id (name.take NAME_MAX)]
  apply map_congr_left
  simp

namespace Driver

variable {name : Name}

theorem length_of_echfs (h : tooLong .echfs name = false) : name.length ≤ 200 := by
  simp only [tooLong, NAME_SIZE, ECHFS_NAME_SIZE, decide_eq_false_iff_not] at h
  omega

variable {driver : Driver}

theorem written_eq (hne : name ≠ []) (h0 : 0 ∉ name) (hsh : driver.tooLong name = false)
    (hfat : driver = .fat → name.length ≤ NAME_MAX) : driver.written n name = name := by
  cases driver with
  | ext2 =>
    have hlen : name.length ≤ EXT2_NAME_LEN := by simpa [tooLong] using hsh
    have hmod : name.length % 256 = name.length := Nat.mod_eq_of_lt (Nat.lt_succ_of_le hlen)
    exact take_of_length_le hmod.ge
  | fat =>
    rw [written, if_neg hne, readLongName_longName h0]
    exact take_of_length_le (hfat rfl)
  | echfs =>
    exact take_of_length_le ((length_of_echfs hsh).trans (by decide))
  | devfs => rfl

theorem length_le_nameLimit (hcre : driver.hasCreate) (hsh : driver.tooLong name = false)
    (hfat : driver = .fat → name.length ≤ NAME_MAX) :
    name.length ≤ driver.nameLimit := by
  cases driver with
  | ext2 =>
    have hlen : name.length ≤ EXT2_NAME_LEN := by simpa [tooLong] using hsh
    exact hlen
  | fat => exact hfat rfl
  | echfs => exact length_of_echfs hsh
  | devfs => cases hcre

theorem two_le_nameLimit (driver : Driver) : 2 ≤ driver.nameLimit := by
  cases driver <;> decide

/-- A name a lookup finds is no longer than the entries are; FAT compares no more of it. -/
theorem length_le_of_sameName (hent : entry.length ≤ driver.nameLimit)
    (h : driver.sameName entry name) (hfat : driver = .fat → name.length ≤ NAME_MAX) :
    name.length ≤ driver.nameLimit := by
  cases driver with
  | ext2 => exact (of_decide_eq_true h : entry = name) ▸ hent
  | fat => exact hfat rfl
  | echfs =>
    have hsame : entry.take ECHFS_NAME_SIZE = name.take ECHFS_NAME_SIZE := of_decide_eq_true h
    have hlen := congrArg length hsame
    simp only [length_take, nameLimit, ECHFS_NAME_SIZE] at hlen hent ⊢
    omega
  | devfs => exact (of_decide_eq_true h : entry = name) ▸ hent

end Driver

theorem withoutTrailing_eq (h : lastName path ≠ []) : withoutTrailing path = path := by
  apply rdropWhile_eq_self_iff.mpr
  intro hne hlast
  refine h ((lastName_eq_nil_iff hne).mpr ?_)
  rw [getLast?_eq_some_getLast hne, beq_iff_eq.mp hlast]

theorem withoutTrailing_append (hpt : path ≠ []) (hlast : lastName path = []) :
    ∃ slashes, withoutTrailing path ++ slashes = path ∧ slashes ≠ [] ∧
      ∀ b ∈ slashes, b = SLASH := by
  refine ⟨path.rtakeWhile (· == SLASH), rdropWhile_append_rtakeWhile .., ?_, ?_⟩
  · intro hnil
    have hsl := (lastName_eq_nil_iff hpt).mp hlast
    rw [getLast?_eq_some_getLast hpt] at hsl
    exact rtakeWhile_eq_nil_iff.mp hnil hpt (by simpa using hsl)
  · intro b hb
    simpa using mem_rtakeWhile_imp hb

/-! ## From the path to the driver -/

variable {v : Volumes} {cred : Credentials} {a : Answers} {c : Call}

@[simp] theorem Outcome.after_ok (x : α) (f : α → Outcome) : Outcome.after (.ok x) f = f x := rfl

/-! A call fails at each of its checks, or goes on past it. -/

theorem Outcome.guard_cases [Decidable p] (h : ¬p → (∃ e, o = fail e) ∨ Q) :
    (∃ e, (if p then fail e' else o) = fail e) ∨ Q := by
  split
  · exact .inl ⟨_, rfl⟩
  · exact h ‹_›

theorem Outcome.after_cases {x : Except Errno α} (h : ∀ y, x = .ok y → (∃ e, f y = fail e) ∨ Q) :
    (∃ e, after x f = fail e) ∨ Q := by
  cases x with
  | error e => exact .inl ⟨e, rfl⟩
  | ok y => exact h y rfl

namespace Volumes

variable {dirfd : Except Errno Nat} {page : Bool}

theorem name_of_parentAt (h : v.parentAt cred dirfd path page = .ok (dir, name)) :
    path ≠ [] ∧ v.type dir = .directory ∧ name = lastName path := by
  obtain ⟨baseDir, -, hpar⟩ := bind_eq_ok.mp h
  exact Tree.pathResolveParentAt_name hpar

variable {path : Name}

theorem resolveNewParent_ok (h : v.resolveNewParent cred dirfd path page = .ok parent) :
    v.parentAt cred dirfd path page = .ok parent ∧
      v.vnodeAccess cred parent.1 (W_OK ||| X_OK) = .ok () := by
  obtain ⟨parent', hpar, h⟩ := bind_eq_ok.mp h
  obtain ⟨_, hacc, ⟨⟩⟩ := bind_eq_ok.mp h
  exact ⟨hpar, hacc⟩

theorem resolveRenameParent_ok (h : v.resolveRenameParent cred dirfd path page = .ok parent)
    : v.parentAt cred dirfd path page = .ok parent := by
  obtain ⟨parent', hpar, h⟩ := bind_eq_ok.mp h
  obtain ⟨_, -, ⟨⟩⟩ := bind_eq_ok.mp h
  exact hpar

/-- What the driver leaves when it has written the entry. -/
def wrote (v : Volumes) (d : Nat) (name : Name) (a : Answers) : Outcome :=
  ⟨a.after.elim (.ok ()) .error, some (d, (v.ops d).written a.tail name)⟩

theorem createLocked_eq (hsh : (v.ops d).tooLong name = false) (hfree : v.hasName d name = false)
    (hrm : a.before = none) : v.createLocked d name a = v.wrote d name a := by
  simp [createLocked, hsh, hfree, hrm, wrote]

theorem createLocked_cases (v : Volumes) (d : Nat) (name : Name) (a : Answers) :
    (∃ e, v.createLocked d name a = .fail e) ∨
      (v.ops d).tooLong name = false ∧ v.hasName d name = false ∧ a.before = none := by
  refine guard_cases fun hsh => guard_cases fun hfree => ?_
  cases hrm : a.before with
  | some e => exact .inl ⟨e, rfl⟩
  | none => exact .inr ⟨by simpa using hsh, by simpa using hfree, rfl⟩

theorem entry_of_trailing (h : v.parentAt cred dirfd path page = .ok (p, []))
    (hpar : v.parentAt cred dirfd (withoutTrailing path) page = .ok (dir, n))
    (hcr : v.vfsCrossMount dir = .ok d) (hne : n ≠ []) (hdots : isDots n = false) :
    ∃ u, v.entry d n = .ok u := by
  obtain ⟨hpt, -, hlast⟩ := name_of_parentAt h
  obtain ⟨hpath', -, rfl⟩ := name_of_parentAt hpar
  obtain ⟨baseDir, hbs, h⟩ := bind_eq_ok.mp h
  obtain ⟨baseDir', hbase', hpar⟩ := bind_eq_ok.mp hpar
  obtain ⟨slashes, happ, hslashes, hsl⟩ := withoutTrailing_append hpt hlast.symm
  -- the directory part of the path is all of it but the last separator
  have hdir : dirPart path = path := by
    have := dirPart_append_lastName path
    rwa [← hlast, append_nil] at this
  have hrt : path ≠ [SLASH] := by
    rintro rfl
    exact hpath' rfl
  have hdrop : path.dropLast = withoutTrailing path ++ slashes.dropLast := by
    conv_lhs => rw [← happ, dropLast_append_of_ne_nil hslashes]
  unfold Tree.pathResolveParentAt at h
  rw [guard_eq_ok, bind_eq_ok] at h
  obtain ⟨-, parent, hrsv, -⟩ := h
  rw [Tree.resolveDirPart, hdir, if_neg hpt, if_neg hrt, guard_eq_ok, guard_eq_ok,
    hdrop] at hrsv
  have hsame : baseDir' = baseDir := by
    have hhd : path.head? = (withoutTrailing path).head? := by
      conv_lhs => rw [← happ, head?_append_of_ne_nil _ hpath']
    rw [syscallDirfd, hhd] at hbs
    exact Except.ok.inj (hbase'.symm.trans hbs)
  obtain ⟨links, hlks⟩ := Tree.pathResolveAt_of_parent (hsame ▸ hpar) slashes.dropLast 0
  have hrs : slashes.dropLast = [] ∨ ∃ text, slashes.dropLast = SLASH :: text := by
    cases hcas : slashes.dropLast with
    | nil => exact .inl rfl
    | cons b text =>
      obtain rfl := hsl b (dropLast_subset _ (hcas ▸ mem_cons_self))
      exact .inr ⟨text, rfl⟩
  obtain ⟨-, child, hch⟩ := Tree.vnodeLookup_of_resolve hne (slash_notMem_lastName _) hrs hdots
    (hlks.symm.trans hrsv.2.2)
  obtain ⟨d', hcr', hent⟩ := bind_eq_ok.mp hch
  cases hcr.symm.trans hcr'
  exact ⟨child, hent⟩

end Volumes

theorem named_fail (e : Errno) : Named v cred c a (.fail e) where
  wellFormed _ _ h := by cases h
  exact _ _ h := by cases h
  fresh _ _ _ h := by cases h
  tooLong _ _ _ _ _ _ := ⟨e, rfl⟩

theorem named_of_fails (h : (∃ e, o = fail e) ∨ False) : Named v cred c a o := by
  obtain ⟨e, rfl⟩ := h.resolve_right id
  exact named_fail e

theorem named_of_nothing (hnone : o.gained = none)
    (hpar : v.parentAt cred c.dirfd c.path.text a.page = .ok (dir, lastName c.path.text))
    (hcr : v.vfsCrossMount dir = .ok d)
    (hlen : (lastName c.path.text).length ≤ (v.ops d).nameLimit) : Named v cred c a o where
  wellFormed _ _ h := by rw [hnone] at h; cases h
  exact _ _ h := by rw [hnone] at h; cases h
  fresh _ _ _ h := by rw [hnone] at h; cases h
  tooLong dir' name d' hpar' hcr' hlg := by
    cases hpar.symm.trans hpar'
    cases hcr.symm.trans hcr'
    exact absurd hlen (not_le.mpr hlg)

/-- A call that has written an entry under the last name of its path has named it well unless
the name is empty, one of the dots, or more than FAT can hold. -/
theorem named_wrote (hgai : o.gained = some (d, (v.ops d).written a.tail (lastName c.path.text)))
    (hpar : v.parentAt cred c.dirfd c.path.text a.page = .ok (dir, lastName c.path.text))
    (hcr : v.vfsCrossMount dir = .ok d) (hcre : (v.ops d).hasCreate)
    (hsh : (v.ops d).tooLong (lastName c.path.text) = false) :
    Named v cred c a o ↔
      lastName c.path.text ≠ [] ∧ isDots (lastName c.path.text) = false ∧
        (v.ops d = .fat → (lastName c.path.text).length ≤ NAME_MAX) := by
  set name := lastName c.path.text with hnm
  have h0 : 0 ∉ name := fun h => c.path.noNul ((rtakeWhile_suffix ..).subset h)
  constructor
  · intro h
    obtain ⟨hne, hdots, -⟩ := h.wellFormed d _ hgai
    obtain ⟨dir', hpar', hcr'⟩ := h.exact d _ hgai
    have hnne : name ≠ [] := by
      intro hnil
      rw [hnil] at hpar
      have htra := (lastName_eq_nil_iff (name_of_parentAt hpar).1).mp
        (hnm.symm.trans hnil)
      obtain ⟨u, hu⟩ := entry_of_trailing hpar hpar' hcr' hne hdots
      exact h.fresh htra d _ hgai u hu
    rw [withoutTrailing_eq hnne, hpar] at hpar'
    obtain ⟨-, hwrn⟩ := Prod.mk.inj (Except.ok.inj hpar')
    refine ⟨hnne, hwrn ▸ hdots, fun hfat => ?_⟩
    rw [hfat, written, if_neg hnne, readLongName_longName h0] at hwrn
    rw [hwrn]
    exact length_take_le _ _
  · rintro ⟨hne, hdots, hfat⟩
    rw [written_eq hne h0 hsh hfat] at hgai
    refine ⟨?_, ?_, ?_, ?_⟩
    · intro _ _ h
      cases hgai.symm.trans h
      exact ⟨hne, hdots, slash_notMem_lastName _⟩
    · intro _ _ h
      cases hgai.symm.trans h
      rw [withoutTrailing_eq hne]
      exact ⟨dir, hpar, hcr⟩
    · intro htra
      exact absurd ((lastName_eq_nil_iff (name_of_parentAt hpar).1).mpr htra) hne
    intro dir' name' d' hpar' hcr' hlg
    cases hpar.symm.trans hpar'
    cases hcr.symm.trans hcr'
    exact absurd (length_le_nameLimit hcre hsh hfat) (not_le.mpr hlg)

/-! ## `mkdir`, `symlink` and `link` -/

theorem Reaches.of
    (hpar : v.resolveNewParent cred dirfd path.text a.page = .ok (dir, name))
    (hcr : v.vfsCrossMount dir = .ok d) (hcre : (v.ops d).hasCreate)
    (hwrb : v.isReadonly d = false)
    (h : (v.ops d).tooLong name = false ∧ v.hasName d name = false ∧ a.before = none) :
    Reaches v cred dirfd path a d := by
  obtain rfl := (name_of_parentAt (resolveNewParent_ok hpar).1).2.2
  exact ⟨⟨dir, hpar, hcr⟩, hcre, hwrb, h.1, h.2.1, h.2.2⟩

theorem Reaches.unique (h : Reaches v cred dirfd path a d)
    (h' : Reaches v cred dirfd path a d') : d' = d := by
  obtain ⟨dir, hpar, hcr⟩ := h.parent
  obtain ⟨dir', hpar', hcr'⟩ := h'.parent
  cases hpar.symm.trans hpar'
  exact Except.ok.inj (hcr'.symm.trans hcr)

/-- Where a call hands its parent directory and name to `body`, which fails or creates. -/
theorem named_iff_of_body (body : Nat → Name → Outcome) (P : Nat → Prop)
    (hfai : ∀ d, (∃ e, body d (lastName c.path.text) = .fail e) ∨
      (v.ops d).hasCreate ∧ v.isReadonly d = false ∧ P d)
    (hcreates : ∀ d, (v.ops d).hasCreate → v.isReadonly d = false → P d →
      body d (lastName c.path.text) = v.createLocked d (lastName c.path.text) a) :
    Named v cred c a
        (.after (v.resolveNewParent cred c.dirfd c.path.text a.page) fun parent =>
          .after (v.vfsCrossMount parent.1) fun d => body d parent.2) ↔
      ∀ d, Reaches v cred c.dirfd c.path a d → P d →
        lastName c.path.text ≠ [] ∧ isDots (lastName c.path.text) = false ∧
          (v.ops d = .fat → (lastName c.path.text).length ≤ NAME_MAX) := by
  by_cases hrea : ∃ d, Reaches v cred c.dirfd c.path a d ∧ P d
  · obtain ⟨d, hd, hP⟩ := hrea
    obtain ⟨dir, hpar, hcr⟩ := hd.parent
    simp only [hpar, hcr, after_ok]
    rw [hcreates d hd.create hd.writable hP, createLocked_eq hd.short hd.free hd.room,
      named_wrote rfl (resolveNewParent_ok hpar).1 hcr hd.create hd.short]
    constructor
    · intro h d' hd' _
      exact hd.unique hd' ▸ h
    · intro h
      exact h d hd hP
  · have hnone : ∀ d, Reaches v cred c.dirfd c.path a d → ¬P d :=
      fun d hd hP => hrea ⟨d, hd, hP⟩
    refine ⟨fun _ d hd hP => absurd hP (hnone d hd), fun _ => ?_⟩
    refine named_of_fails (after_cases fun ⟨dir, name⟩ hpar => ?_)
    obtain rfl := (name_of_parentAt (resolveNewParent_ok hpar).1).2.2
    refine after_cases fun d hcr => (hfai d).elim .inl ?_
    rintro ⟨hcre, hwrb, hP⟩
    rw [hcreates d hcre hwrb hP]
    refine (v.createLocked_cases d (lastName c.path.text) a).imp id fun had => ?_
    exact hnone d (.of hpar hcr hcre hwrb had) hP

theorem named_mkdirat (dirfd : Except Errno Nat) (path : UserPath) :
    Named v cred (.mkdirat dirfd path) a (v.run cred a (.mkdirat dirfd path)) ↔
      GivesName v cred a (.mkdirat dirfd path) := by
  refine (named_iff_of_body (fun d name => v.createCrossed d name a) (fun _ => True) ?_ ?_).trans
    ⟨fun h d hd => h d hd trivial, fun h d hd _ => h d hd⟩
  · refine fun d => guard_cases fun hcre => guard_cases fun hwrb => ?_
    exact .inr ⟨by simpa using hcre, by simpa using hwrb, trivial⟩
  · intro d hcre hwrb _
    simp [createCrossed, hcre, hwrb]

theorem Driver.hasCreate_of_hasLink {driver : Driver} (h : driver.hasLink) : driver.hasCreate := by
  cases driver with
  | ext2 => rfl
  | fat | echfs | devfs => cases h

/-- A symbolic link or link is made once the driver has an operation for it and the name passes
`check_new_name`. -/
theorem checked_cases (v : Volumes) (d : Nat) (name : Name) (a : Answers) :
    (∃ e, Outcome.after (v.checkNewName d name) (fun _ => v.createLocked d name a) = .fail e) ∨
      v.isReadonly d = false ∧ isDots name = false := by
  refine after_cases fun _ h => .inr ?_
  unfold checkNewName at h
  rw [guard_eq_ok, guard_eq_ok] at h
  exact ⟨by simpa using h.1, by simpa using h.2.1⟩

theorem checkNewName_ok (hwrb : v.isReadonly d = false) (hdots : isDots name = false) :
    v.checkNewName d name = .ok () := by
  simp [checkNewName, hwrb, hdots]

theorem named_symlinkat (target : UserPath) (dirfd : Except Errno Nat) (path : UserPath) :
    Named v cred (.symlinkat target dirfd path) a
        (v.run cred a (.symlinkat target dirfd path)) ↔
      GivesName v cred a (.symlinkat target dirfd path) := by
  by_cases htgt : target.text = []
  · refine ⟨fun _ d _ hne => absurd htgt hne, fun _ => ?_⟩
    simp only [run, htgt]
    exact named_of_fails (after_cases fun _ _ => .inl ⟨_, rfl⟩)
  simp only [run, vnodeSymlink, htgt]
  refine (named_iff_of_body (fun d name => v.symlinkCrossed d name a)
    (fun d => (v.ops d).hasLink ∧ isDots (lastName path.text) = false) ?_ ?_).trans ⟨?_, ?_⟩
  · refine fun d => guard_cases fun hlk => ?_
    have hlk : (v.ops d).hasLink := by simpa using hlk
    refine (checked_cases v d _ a).imp id fun h => ?_
    exact ⟨hasCreate_of_hasLink hlk, h.1, hlk, h.2⟩
  · rintro d _ hwrb ⟨hlk, hdots⟩
    simp [Call.path, symlinkCrossed, hlk, checkNewName_ok hwrb hdots]
  · intro h d hd _ hlk hnil
    exact (h d hd ⟨hlk, by rw [hnil]; rfl⟩).1 hnil
  rintro h d hd ⟨hlk, hdots⟩
  refine ⟨h d hd htgt hlk, hdots, fun hfat => ?_⟩
  rw [hfat] at hlk
  cases hlk

theorem named_linkat (target dirfd : Except Errno Nat) (path : UserPath) :
    Named v cred (.linkat target dirfd path) a
        (v.run cred a (.linkat target dirfd path)) ↔
      GivesName v cred a (.linkat target dirfd path) := by
  cases target with
  | error e => exact ⟨fun _ _ _ _ h => (by cases h), fun _ => named_fail e⟩
  | ok node =>
    refine (named_iff_of_body (fun d name => v.linkCrossed d name node a)
      (fun d => v.fs node = v.fs d ∧ v.type node ≠ .directory ∧ (v.ops d).hasLink ∧
        isDots (lastName path.text) = false) ?_ ?_).trans ⟨?_, ?_⟩
    · refine fun d => guard_cases fun hfs => guard_cases fun hlk => ?_
      obtain ⟨htp, hlk⟩ : v.type node ≠ .directory ∧ (v.ops d).hasLink = true := by
        simpa using hlk
      refine (checked_cases v d _ a).imp id fun h => ?_
      exact ⟨hasCreate_of_hasLink hlk, h.1, not_not.mp hfs, htp, hlk, h.2⟩
    · rintro d _ hwrb ⟨hfs, htp, hlk, hdots⟩
      simp [Call.path, linkCrossed, hfs, htp, hlk, checkNewName_ok hwrb hdots]
    · rintro h d _ hd ⟨rfl⟩ hfs htp hlk hnil
      exact (h d hd ⟨hfs, htp, hlk, by rw [hnil]; rfl⟩).1 hnil
    rintro h d hd ⟨hfs, htp, hlk, hdots⟩
    refine ⟨h d node hd rfl hfs htp hlk, hdots, fun hfat => ?_⟩
    rw [hfat] at hlk
    cases hlk

/-! ## `rename` -/

theorem renameLookups_ok
    (h : v.renameLookups olddir oldname newdir newname a = .ok (source, victim)) :
    v.fs olddir = v.fs newdir ∧ (v.ops olddir).hasRename ∧ isDots newname = false ∧
      newname ≠ [] ∧ ∀ u, victim = some u → v.entry newdir newname = .ok u := by
  unfold renameLookups at h
  rw [guard_eq_ok, guard_eq_ok, guard_eq_ok, guard_eq_ok, guard_eq_ok, bind_eq_ok] at h
  obtain ⟨hfs, hops, -, hdots, hnil, source', -, h⟩ := h
  obtain ⟨victim', hvic, h⟩ := bind_eq_ok.mp h
  obtain ⟨_, -, ⟨⟩⟩ := bind_eq_ok.mp h
  refine ⟨not_not.mp hfs, by simpa using hops, by simpa using (not_or.mp hdots).2,
    (not_or.mp hnil).2, ?_⟩
  rintro u rfl
  unfold lookupVictim at hvic
  cases hent : v.entry newdir newname with
  | ok u' =>
    rw [hent] at hvic
    rw [Option.some.inj (Except.ok.inj hvic)]
  | error e =>
    rw [hent] at hvic
    simp only at hvic
    split at hvic
    · cases hvic
    · cases hvic

theorem renameLocked_cases (v : Volumes) (d : Nat) (name : Name) (victim : Option Nat) (a : Answers)
    :
    (∃ e, v.renameLocked d name victim a = .fail e) ∨
      (v.ops d).tooLong name = false ∧ (v.hasName d name ↔ victim ≠ none) ∧ a.before = none := by
  refine guard_cases fun hsh => guard_cases fun hfree => guard_cases fun htkn => ?_
  cases hrm : a.before with
  | some e => exact .inl ⟨e, rfl⟩
  | none => exact .inr ⟨by simpa using hsh, by tauto, rfl⟩

theorem renameLocked_eq (hsh : (v.ops d).tooLong name = false)
    (htkn : v.hasName d name ↔ victim ≠ none) (hrm : a.before = none) :
    v.renameLocked d name victim a = { v.wrote d name a with
      gained := if victim = none ∨ rewrites (v.ops d) then
        some (d, (v.ops d).written a.tail name) else none } := by
  unfold renameLocked
  rw [if_neg (by simp [hsh]), if_neg (by tauto), if_neg (by tauto), hrm]
  rfl

theorem length_le_of_entry (h : v.entry d name = .ok u)
    (hfat : v.ops d = .fat → name.length ≤ NAME_MAX) : name.length ≤ (v.ops d).nameLimit := by
  obtain ⟨m, hm, hsame⟩ := v.entry_found d name u h
  exact length_le_of_sameName (v.names_le d m hm) hsame hfat

/-- A rename fails on the way to the driver, or its two paths, the source and the victim have been
found. -/
theorem run_renameat_cases (v : Volumes) (cred : Credentials) (a : Answers)
    (olddirfd : Except Errno Nat) (oldpath : UserPath) (dirfd : Except Errno Nat)
    (path : UserPath) :
    (∃ e, v.run cred a (.renameat olddirfd oldpath dirfd path) = .fail e) ∨
      ∃ olddir oldname newdir sourceDir d source victim,
        v.resolveRenameParent cred olddirfd oldpath.text a.oldPage =
          .ok (olddir, oldname) ∧
        v.resolveRenameParent cred dirfd path.text a.page =
          .ok (newdir, lastName path.text) ∧
        v.vfsCrossMount olddir = .ok sourceDir ∧ v.vfsCrossMount newdir = .ok d ∧
        v.renameLookups sourceDir oldname d (lastName path.text) a = .ok (source, victim) := by
  refine after_cases fun ⟨olddir, oldname⟩ hold => after_cases fun ⟨newdir, name⟩ hnew => ?_
  obtain rfl := (name_of_parentAt (resolveRenameParent_ok hnew)).2.2
  refine after_cases fun sourceDir hcr => after_cases fun d hcr' => ?_
  exact after_cases fun found hlks =>
    .inr ⟨_, _, _, _, _, _, _, hold, hnew, hcr, hcr', hlks⟩

theorem named_renameat (olddirfd : Except Errno Nat) (oldpath : UserPath) (dirfd : Except Errno Nat)
    (path : UserPath) :
    Named v cred (.renameat olddirfd oldpath dirfd path) a
        (v.run cred a (.renameat olddirfd oldpath dirfd path)) ↔
      GivesName v cred a (.renameat olddirfd oldpath dirfd path) := by
  set c : Call := .renameat olddirfd oldpath dirfd path with hc
  constructor
  · rintro h d ⟨olddir, oldname, newdir, sourceDir, source, victim, hold, hnew, hcr, hcr',
      hlks, hwrs⟩ hfat
    have hpar := resolveRenameParent_ok hnew
    simp only [hc, run, vnodeRename, renameCrossed, hold, hnew, hcr,
      hcr', hlks, after_ok] at h
    by_contra hlg
    have hlim : (v.ops d).nameLimit < (lastName path.text).length := by
      rw [hfat]
      exact not_le.mp hlg
    by_cases hsame : victim = some source
    · -- the old name and the new one are the same to the driver
      rw [if_pos hsame] at h
      obtain ⟨e, ⟨⟩⟩ := h.tooLong newdir _ d hpar hcr' hlim
    · obtain ⟨htkn, hrm⟩ := hwrs.resolve_left hsame
      have hsh : (v.ops d).tooLong (lastName path.text) = false := by rw [hfat]; rfl
      rw [if_neg hsame, renameLocked_eq hsh htkn hrm, if_pos (.inr (by rw [hfat]; rfl))] at h
      exact hlg (((named_wrote (c := c) rfl hpar hcr' (by rw [hfat]; rfl) hsh).mp
        h).2.2 hfat)
  · intro h
    rcases run_renameat_cases v cred a olddirfd oldpath dirfd path with ⟨e, he⟩ |
      ⟨olddir, oldname, newdir, sourceDir, d, source, victim, hold, hnew, hcr, hcr',
        hlks⟩
    · rw [he]
      exact named_fail e
    have hpar := resolveRenameParent_ok hnew
    obtain ⟨hfs, hops, hdots, hne, hent⟩ := renameLookups_ok hlks
    have hfat := fun hwrs => h d ⟨olddir, oldname, newdir, sourceDir, source, victim,
      hold, hnew, hcr, hcr', hlks, hwrs⟩
    simp only [hc, run, vnodeRename, renameCrossed, hold, hnew, hcr, hcr', hlks, after_ok]
    split
    case isTrue hsame =>
      exact named_of_nothing rfl hpar hcr'
        (length_le_of_entry (hent source hsame) (hfat (.inl hsame)))
    rename_i hsame
    rcases renameLocked_cases v d (lastName path.text) victim a with
      ⟨e, he⟩ | ⟨hsh, htkn, hrm⟩
    · rw [he]
      exact named_fail e
    have hfat := hfat (.inr ⟨htkn, hrm⟩)
    have hcre : (v.ops d).hasCreate := by
      rw [ops, hfs] at hops
      exact hops
    rw [renameLocked_eq hsh htkn hrm]
    split
    · exact (named_wrote (c := c) rfl hpar hcr' hcre hsh).mpr ⟨hne, hdots, hfat⟩
    · exact named_of_nothing rfl hpar hcr'
        (length_le_nameLimit hcre hsh hfat)

/-! ## `open` -/

variable {baseDir : Option Nat}

theorem length_le_of_resolve
    (hpar : v.pathResolveParentAt cred baseDir path page = .ok (dir, lastName path))
    (hcr : v.vfsCrossMount dir = .ok d)
    (h : v.pathResolveAt cred baseDir path flags = .ok node) :
    (lastName path).length ≤ (v.ops d).nameLimit := by
  have htwo := two_le_nameLimit (v.ops d)
  by_cases hne : lastName path = []
  · rw [hne]
    exact Nat.zero_le _
  by_cases hdots : isDots (lastName path)
  · rcases (by simpa [isDots] using hdots : lastName path = DOT ∨ lastName path = DOTDOT) with
      hdot | hdot
    · rw [hdot]
      exact htwo.trans' (by decide)
    · rw [hdot]
      exact htwo
  obtain ⟨links, hlks⟩ := Tree.pathResolveAt_of_parent hpar [] flags
  rw [append_nil] at hlks
  obtain ⟨hmax, child, hch⟩ := Tree.vnodeLookup_of_resolve hne (slash_notMem_lastName _)
    (.inl rfl) (by simpa using hdots) (hlks.symm.trans h)
  obtain ⟨d', hcr', hent⟩ := bind_eq_ok.mp hch
  cases hcr.symm.trans hcr'
  exact length_le_of_entry hent fun _ => hmax

theorem openCreated_gained :
    (v.openCreated cred baseDir path flags a created).gained = created.gained := by
  unfold openCreated
  split
  · rfl
  split
  · rfl
  · rfl

theorem openCreated_fail
    (h : (v.openCreated cred baseDir path flags a (.fail e)).result = .ok ()) :
    ∃ node, v.pathResolveAt cred baseDir path 0 = .ok node := by
  simp only [openCreated, fail] at h
  split at h
  · obtain ⟨node, hnd, -⟩ := bind_eq_ok.mp h
    exact ⟨node, hnd⟩
  · cases h

theorem vnodeCreate_cases (v : Volumes) (dir : Nat) (name : Name) (a : Answers) :
    (∃ e, v.vnodeCreate dir name a = .fail e) ∨
      ∃ d, v.vfsCrossMount dir = .ok d ∧ (v.ops d).hasCreate ∧ (v.ops d).tooLong name = false ∧
        v.vnodeCreate dir name a = v.wrote d name a := by
  refine after_cases fun d hcr => guard_cases fun hcre => guard_cases fun hwrb => ?_
  refine (v.createLocked_cases d name a).imp id ?_
  rintro ⟨hsh, hfree, hrm⟩
  refine ⟨d, hcr, by simpa using hcre, hsh, ?_⟩
  rw [vnodeCreate, hcr, after_ok, createCrossed, if_neg hcre, if_neg hwrb,
    createLocked_eq hsh hfree hrm]

/-- `file_open` makes an entry only where it has found none, in a directory it may write to. -/
theorem fileOpen_cases :
    ((v.fileOpen cred baseDir path flags a).gained = none ∧
      ((v.fileOpen cred baseDir path flags a).result = .ok () →
        ∃ f node, v.pathResolveAt cred baseDir path f = .ok node)) ∨
    ∃ f dir d, v.pathResolveAt cred baseDir path f = .error .ENOENT ∧
      v.pathResolveParentAt cred baseDir path a.page = .ok (dir, lastName path) ∧
      v.vnodeAccess cred dir (W_OK ||| X_OK) = .ok () ∧
      v.vfsCrossMount dir = .ok d ∧ (v.ops d).hasCreate ∧
      (v.ops d).tooLong (lastName path) = false ∧
      (v.fileOpen cred baseDir path flags a).gained =
        some (d, (v.ops d).written a.tail (lastName path)) := by
  unfold fileOpen
  cases hres : v.pathResolveAt cred baseDir path
      (if exclusive flags then PATH_NOFOLLOW else 0) with
  | ok node =>
    refine .inl ⟨?_, fun _ => ⟨_, node, hres⟩⟩
    simp only
    split
    · rfl
    · rfl
  | error e =>
    simp only
    split
    case isFalse => exact .inl ⟨rfl, fun h => by cases h⟩
    rename_i hcreat
    obtain ⟨rfl, -⟩ := hcreat
    cases hpar : v.pathResolveParentAt cred baseDir path a.page with
    | error e => exact .inl ⟨rfl, fun h => by cases h⟩
    | ok parent =>
      obtain ⟨dir, name⟩ := parent
      obtain rfl := (Tree.pathResolveParentAt_name hpar).2.2
      rw [after_ok, openCreated_gained]
      have hfai : ∀ e, gained (.fail e) = none ∧
          ((v.openCreated cred baseDir path flags a (.fail e)).result = .ok () →
            ∃ f node, v.pathResolveAt cred baseDir path f = .ok node) :=
        fun e => ⟨rfl, fun h => ⟨0, openCreated_fail h⟩⟩
      cases hacc : v.vnodeAccess cred dir (W_OK ||| X_OK) with
      | error e => exact .inl (hfai e)
      | ok =>
        rcases vnodeCreate_cases v dir (lastName path) a with ⟨e, he⟩ |
          ⟨d, hcr, hcre, hsh, hwrote⟩
        · rw [he]
          exact .inl (hfai e)
        · rw [hwrote]
          exact .inr ⟨_, dir, d, hres, rfl, hacc, hcr, hcre, hsh, rfl⟩

theorem named_openat (dirfd : Except Errno Nat) (path : UserPath) (flags : Mode) :
    Named v cred (.openat dirfd path flags) a
      (v.run cred a (.openat dirfd path flags)) := by
  set c : Call := .openat dirfd path flags with hc
  simp only [hc, run]
  cases hbs : syscallDirfd dirfd path.text with
  | error e => exact named_fail e
  | ok baseDir =>
    rw [after_ok]
    rcases fileOpen_cases with ⟨hnone, hrl⟩ |
      ⟨f, dir, d, hmissing, hpar, hacc, hcr, hcre, hsh, hgai⟩
    · refine ⟨fun _ _ h => ?_, fun _ _ h => ?_, fun _ _ _ h => ?_, ?_⟩
      · rw [hnone] at h; cases h
      · rw [hnone] at h; cases h
      · rw [hnone] at h; cases h
      intro dir name d hpat hcr hlg
      cases hres : (v.fileOpen cred baseDir path.text flags a).result with
      | error e => exact ⟨e, rfl⟩
      | ok =>
        obtain ⟨f, node, hnd⟩ := hrl hres
        obtain rfl := (name_of_parentAt hpat).2.2
        obtain ⟨baseDir', hbase', hpar⟩ := bind_eq_ok.mp hpat
        cases hbs.symm.trans hbase'
        exact absurd (length_le_of_resolve hpar hcr hnd) (not_le.mpr hlg)
    · have hpat : v.parentAt cred dirfd path.text a.page =
          .ok (dir, lastName path.text) := bind_eq_ok.mpr ⟨baseDir, hbs, hpar⟩
      obtain ⟨-, hdir, -⟩ := Tree.pathResolveParentAt_name hpar
      obtain ⟨links, hlks⟩ := Tree.pathResolveAt_of_parent hpar [] f
      rw [append_nil, append_nil] at hlks
      obtain ⟨hne, hdots, hmax⟩ := Tree.name_of_resolve_missing (slash_notMem_lastName _) hdir
        hacc (hlks.symm.trans hmissing)
      exact (named_wrote (c := c) hgai hpat hcr hcre hsh).mpr
        ⟨hne, hdots, fun _ => hmax⟩

/-- **Directory entries are named as their paths say**, for every call that makes one, exactly
when the call is none of these: a directory, symbolic link or link whose path ends in a separator
after a directory, which gets an entry without a name (or under a made-up one on FAT); a
directory called `.` or `..` where no entry of that name is; and on FAT a directory or a new name
longer than an entry holds, which is cut short. -/
theorem new_entries_named_iff (v : Volumes) (credentials : Credentials) (a : Answers)
    (c : Call) : Named v credentials c a (v.run credentials a c) ↔
      GivesName v credentials a c := by
  cases c with
  | openat dirfd path flags => exact ⟨fun _ => trivial, fun _ => named_openat dirfd path flags⟩
  | mkdirat dirfd path => exact named_mkdirat dirfd path
  | symlinkat target dirfd path => exact named_symlinkat target dirfd path
  | linkat target dirfd path => exact named_linkat target dirfd path
  | renameat olddirfd oldpath dirfd path => exact named_renameat olddirfd oldpath dirfd path

/-- An ext2 volume with an empty root directory. -/
def emptyVolume : Volumes where
  type _ := .directory
  fs _ := some 0
  parent _ := none
  mountedFs _ := none
  entry _ _ := .error .ENOENT
  stat _ := .ok { mode := 0x41ED, uid := 0, gid := 0, size := 0 }
  readlink _ _ := .error .EINVAL
  vfs _ := { root := 0, mountpoint := none, unmounting := false }
  numFs := 1
  vfsRoot := some 0
  fs_lt v f h := by cases h; decide
  older f m g h _ := by cases h
  driver _ := .ext2
  readonly _ := false
  names _ := [DOT, DOTDOT]
  names_le d n h := by
    rcases (by simpa using h : n = DOT ∨ n = DOTDOT) with rfl | rfl
    · decide
    · decide
  entry_found d n u h := by cases h

/-- `mkdir` of `/`. -/
def mkdirRoot : Call := .mkdirat (.ok 0) { text := [SLASH], noNul := by decide, fits := by decide }

/-- Every allocation and transfer succeeds. -/
def allWell : Answers :=
  { page := true, oldPage := true, before := none, after := none, tail := 1, ancestor := false,
    opened := .ok () }

/-- `mkdir("/")` succeeds, and the root directory has gained an entry without a name. -/
theorem mkdir_root_makes_nameless_entry :
    emptyVolume.run kernelCredentials allWell mkdirRoot = ⟨.ok (), some (0, [])⟩ ∧
      ¬Named emptyVolume kernelCredentials mkdirRoot allWell
        (emptyVolume.run kernelCredentials allWell mkdirRoot) := by
  have hrun : emptyVolume.run kernelCredentials allWell mkdirRoot = ⟨.ok (), some (0, [])⟩ := by
    decide +kernel
  refine ⟨hrun, fun h => ?_⟩
  rw [hrun] at h
  exact (h.wellFormed 0 [] rfl).1 rfl

end Vex.Fs.NewEntry
