import Vex.Fs.Dirents

/-! A directory read in parts is the directory read at once. Each file system enumerates its entries
by position, and a call that is cut off goes on where it was: in ext2 as a record never crosses the
end of a block, so that the walk from the start of the block meets the position again; in FAT as no
segment of a long name is kept over an entry. -/

namespace Vex.Fs.Dirents

open Lib

/-- `x` is `y`, but for an error, which is not taken for the end if `full`. -/
def Agrees {α : Type} (full : Prop) (x y : Except Errno α) : Prop :=
  (∃ e, x = .error e ∧ (full → e ≠ .ENOENT)) ∨ x = y

theorem upToEnd_error (h : upToEnd (.error e : Except Errno α) = .ok r) :
    e = .ENOENT ∧ r = none := by
  unfold upToEnd at h
  split at h
  next heq =>
    cases h
    exact ⟨Except.error.inj heq, rfl⟩
  next => cases h
  next heq => cases heq

theorem upToEnd_some (h : upToEnd x = .ok (some a)) : x = .ok a := by
  unfold upToEnd at h
  split at h
  · cases h
  · cases h
  · cases h
    rfl

theorem Agrees.eq_of_upToEnd (h : Agrees full x y) (hr : upToEnd x = .ok r)
    (hfu : r.isSome ∨ full) : x = y := by
  rcases h with ⟨e, rfl, he⟩ | rfl
  · obtain ⟨rfl, rfl⟩ := upToEnd_error hr
    exact absurd rfl (he (hfu.resolve_left Bool.false_ne_true))
  · rfl

/-! ## ext2 -/

namespace Ext2Dir

variable {d : Ext2Dir} {io : Io}

theorem readExact_agrees (fault : Option Fault) (count offset : Nat) :
    Agrees True (d.readExact fault count offset) (d.readExact .none count offset) := by
  cases fault with
  | none => exact .inr rfl
  | some f => exact .inl ⟨f.1, rfl, fun _ => f.2⟩

variable (io) in
theorem readRecord_agrees (offset : Nat) :
    Agrees True (d.readRecord io offset) (d.readRecord .none offset) := by
  unfold readRecord
  rcases d.readExact_agrees (io.head offset) 8 offset with ⟨e, he, hne⟩ | heq
  · exact .inl ⟨e, by rw [he], hne⟩
  · exact .inr (by rw [heq]; rfl)

variable (io) in
theorem direntRead_agrees (fuel offset : Nat) :
    Agrees True (d.direntRead io fuel offset) (d.direntRead .none fuel offset) := by
  induction fuel generalizing offset with
  | zero => exact .inr rfl
  | succ fuel ih =>
    rw [direntRead, direntRead]
    split
    next =>
      rcases d.readRecord_agrees io offset with ⟨e, he, hne⟩ | heq
      · exact .inl ⟨e, by rw [he], hne⟩
      rw [heq]
      cases d.readRecord .none offset with
      | error e => exact .inr rfl
      | ok head =>
        simp only
        split
        next => exact ih _
        next =>
          rcases d.readExact_agrees (io.name offset) head.nameLen (offset + 8)
            with ⟨e, he, hne⟩ | heq
          · exact .inl ⟨e, by rw [he], hne⟩
          · exact .inr (by rw [heq]; rfl)
    next => exact .inr rfl

theorem next_follows : Follows True (d.next io) (d.next .none) := by
  intro p r h _
  unfold next at h ⊢
  have hagr := d.direntRead_agrees io (d.size - p) p
  split at h
  · cases h
  next hrd =>
    rw [← hagr.eq_of_upToEnd hrd (.inr trivial), hrd]
    exact h
  rename_i entry offset hrd
  rw [← hagr.eq_of_upToEnd hrd (.inr trivial), hrd]
  split at h
  · cases h
  next nodetype htp =>
    have htype' : d.entryNodetype .none entry = .ok nodetype := by
      unfold entryNodetype at htp ⊢
      split at htp <;> first | exact htp | skip
      split at htp
      · cases htp
      · exact htp
    simpa only [htype'] using h

theorem readRecord_valid (h : d.readRecord io offset = .ok head) :
    0 < head.recLen ∧ head.recLen ≤ d.blockSize - offset % d.blockSize := by
  unfold readRecord at h
  split at h
  · cases h
  split at h
  next hval =>
    cases h
    obtain ⟨hmin, -, hmax⟩ := hval
    have hpos : 0 < direntReclen (d.headAt offset).nameLen := by
      unfold direntReclen
      omega
    exact ⟨by omega, hmax⟩
  next => cases h

/-- The records from one offset to another. -/
inductive Chain (d : Ext2Dir) : Nat → Nat → Prop
  | refl : Chain d r r
  | step : r < d.size → d.readRecord .none r = .ok head → Chain d (r + head.recLen) q → Chain d r q

theorem Chain.trans (h : Chain d p q) (h' : Chain d q r) : Chain d p r := by
  induction h with
  | refl => exact h'
  | step hlt hrd _ ih => exact .step hlt hrd (ih h')

variable {p q : Nat}

theorem Chain.le (h : Chain d p q) : p ≤ q := by
  induction h with
  | refl => exact Nat.le_refl _
  | step _ _ _ ih => omega

theorem Chain.from_block (h : Chain d p q) (hp : Chain d (p - p % d.blockSize) p) :
    Chain d (q - q % d.blockSize) q := by
  induction h with
  | refl => exact hp
  | @step r head q hlt hrd _ ih =>
    apply ih
    obtain ⟨hpos, hmax⟩ := readRecord_valid hrd
    have hdiv := Nat.div_add_mod r d.blockSize
    rcases Nat.lt_or_ge (r % d.blockSize + head.recLen) d.blockSize with hin | hend
    · have hsame : (r + head.recLen) % d.blockSize = r % d.blockSize + head.recLen := by
        rw [show r + head.recLen = r % d.blockSize + head.recLen +
          d.blockSize * (r / d.blockSize) by omega, Nat.add_mul_mod_self_left,
          Nat.mod_eq_of_lt hin]
      have hblk : r + head.recLen - (r + head.recLen) % d.blockSize = r - r % d.blockSize := by
        omega
      rw [hblk]
      exact hp.trans (.step hlt hrd .refl)
    · have h0 : (r + head.recLen) % d.blockSize = 0 := by
        rw [show r + head.recLen = d.blockSize * (r / d.blockSize) + d.blockSize by omega,
          Nat.add_mod_right, Nat.mul_mod_right]
      rw [h0]
      exact .refl

/-- The walk from the start of the block meets a position on the chain again. -/
theorem alignLoop_eq (h : Chain d record target) (hfu : target - record ≤ fuel)
    (hok : d.alignLoop io target fuel record = .ok offset) : offset = target := by
  induction h generalizing fuel with
  | refl =>
    cases fuel with
    | zero => exact (Except.ok.inj hok).symm
    | succ fuel => simpa [alignLoop, eq_comm] using hok
  | @step record head target hlt hrd hchn ih =>
    obtain ⟨hpos, -⟩ := readRecord_valid hrd
    have hle := hchn.le
    cases fuel with
    | zero => omega
    | succ fuel =>
      rw [alignLoop, if_pos ⟨by omega, hlt⟩] at hok
      rcases d.readRecord_agrees io record with ⟨e, he, hne⟩ | heq
      · simp [he] at hok
      · rw [heq, hrd] at hok
        exact ih (by omega) hok

theorem direntAlign_eq (h : Chain d 0 position) (hok : d.direntAlign io position = .ok offset) :
    offset = position := by
  exact alignLoop_eq (h.from_block (by simpa using .refl)) (by omega) hok

theorem direntRead_chain (h : d.direntRead .none fuel offset = .ok (entry, q)) :
    Chain d offset q ∧ offset < q := by
  induction fuel generalizing offset with
  | zero => cases h
  | succ fuel ih =>
    rw [direntRead] at h
    split at h
    next hlt =>
      cases hrd : d.readRecord .none offset with
      | error e => simp [hrd] at h
      | ok head =>
        obtain ⟨hpos, -⟩ := readRecord_valid hrd
        simp only [hrd] at h
        split at h
        next =>
          obtain ⟨hchn, hgt⟩ := ih h
          exact ⟨.step hlt hrd hchn, by omega⟩
        next =>
          split at h
          · cases h
          · cases h
            exact ⟨.step hlt hrd .refl, by omega⟩
    next => cases h

theorem next_chain (h : d.next .none p = .ok (some (a, q))) : Chain d p q ∧ p < q := by
  unfold next at h
  split at h
  · cases h
  · cases h
  next entry offset hrd =>
    split at h
    · cases h
    · cases h
      exact direntRead_chain (upToEnd_some hrd)

theorem next_bounded (io : Io) : Bounded (d.next io) d.size where
  lt h := (next_chain (next_follows h (.inr trivial))).2
  done {p} h := by
    have hfu : d.size - p = 0 := by omega
    simp [next, hfu, direntRead, upToEnd]

theorem walk_chain (h : Lib.Walk (d.next .none) p as q) : Chain d p q := by
  induction h with
  | nil => exact .refl
  | cons hnx _ ih => exact (next_chain hnx).1.trans ih

end Ext2Dir

/-! ## FAT -/

namespace FatDir

variable {d : FatDir} {io : Io}

/-- No read of the table fails. -/
def TableRead (d : FatDir) (io : Io) : Prop := ∀ i, d.firstEntries ≤ i → io.table i = false

theorem readEntry_agrees (io : Io) (offset : Nat) :
    Agrees (d.TableRead io) (d.readEntry io offset) (d.readEntry .none offset) := by
  unfold readEntry
  split
  next hlost =>
    refine .inl ⟨_, rfl, fun htab => ?_⟩
    simp [htab offset hlost.1] at hlost
  rw [if_neg (by simp [Io.none])]
  split
  next => exact .inr rfl
  next =>
    split
    next f _ => exact .inl ⟨f.1, rfl, fun _ => f.2⟩
    next => exact .inr rfl

theorem direntRead_agrees (io : Io) (fuel offset : Nat) (ldirs : List RawEntry) :
    Agrees (d.TableRead io) (d.direntRead io fuel offset ldirs)
      (d.direntRead .none fuel offset ldirs) := by
  induction fuel generalizing offset ldirs with
  | zero => exact .inr rfl
  | succ fuel ih =>
    rw [direntRead, direntRead]
    rcases d.readEntry_agrees io offset with ⟨e, he, hne⟩ | heq
    · exact .inl ⟨e, by rw [he], hne⟩
    rw [heq]
    cases d.readEntry .none offset with
    | error e => exact .inr rfl
    | ok raw =>
      simp only
      split
      · exact .inr rfl
      split
      · exact ih _ _
      split
      · exact ih _ _
      split
      · exact ih _ _
      · exact .inr rfl

theorem direntRead_lt (h : d.direntRead io fuel offset ldirs = .ok (entry, q)) : offset < q := by
  induction fuel generalizing offset ldirs with
  | zero => cases h
  | succ fuel ih =>
    rw [direntRead] at h
    split at h
    · cases h
    split at h
    · cases h
    split at h
    · exact Nat.lt_of_succ_lt (ih h)
    split at h
    · exact Nat.lt_of_succ_lt (ih h)
    split at h
    · exact Nat.lt_of_succ_lt (ih h)
    · cases h
      exact Nat.lt_succ_self _

theorem entryFrom_follows (h : d.entryFrom io fuel offset = .ok r)
    (hfu : r.isSome ∨ d.TableRead io) : d.entryFrom .none fuel offset = .ok r := by
  induction fuel generalizing offset with
  | zero => exact h
  | succ fuel ih =>
    have hagr := d.direntRead_agrees io (d.slots.length - offset) offset []
    rw [entryFrom] at h ⊢
    split at h
    · cases h
    next hrd =>
      cases h
      rw [← hagr.eq_of_upToEnd hrd (hfu.imp_left id), hrd]
    rename_i entry q hrd
    rw [← hagr.eq_of_upToEnd hrd (.inl rfl), hrd]
    simp only
    split at h
    next hsk =>
      rw [if_pos hsk]
      exact ih h
    next hsk =>
      rw [if_neg hsk]
      exact h

theorem entryFrom_lt (h : d.entryFrom io fuel offset = .ok (some (a, q))) :
    offset + DIR_DOTS_END < q := by
  induction fuel generalizing offset with
  | zero => cases h
  | succ fuel ih =>
    rw [entryFrom] at h
    split at h
    · cases h
    · cases h
    rename_i entry q' hrd
    have hlt := direntRead_lt (upToEnd_some hrd)
    split at h
    next =>
      have hrs := ih h
      omega
    next =>
      cases h
      omega

/-- The entries by position, with the two dots. -/
def positions (d : FatDir) (io : Io) (position : Nat) : Except Errno (Option (Dirent × Nat)) :=
  if position < DIR_DOTS_END then
    match io.parent with
    | some e => .error e
    | .none =>
      if position = 0 then .ok (some (dotEntry d.ino DOT 1, 1))
      else .ok (some (dotEntry d.parent DOTDOT DIR_DOTS_END, DIR_DOTS_END))
  else d.next io position

theorem positions_follows : Follows (d.TableRead io) (d.positions io) (d.positions .none) := by
  intro p r h hfu
  unfold positions at h ⊢
  split at h
  next hdots =>
    rw [if_pos hdots]
    split at h
    · cases h
    · exact h
  next hdots =>
    rw [if_neg hdots]
    exact entryFrom_follows h hfu

theorem positions_bounded (io : Io) : Bounded (d.positions io) (d.slots.length + DIR_DOTS_END) where
  lt {p a q} h := by
    unfold positions at h
    split at h
    next hdots =>
      split at h
      · cases h
      split at h
      · cases h
        omega
      · cases h
        exact hdots
    next hdots =>
      have hlt := entryFrom_lt h
      omega
  done {p} h := by
    have hfu : d.slots.length - (p - DIR_DOTS_END) = 0 := by omega
    have hdots : ¬ p < DIR_DOTS_END := by omega
    rw [positions, if_neg hdots, next, hfu]
    rfl

theorem dotEntry_off (ino : Nat) (name : Name) (off off' : Nat) :
    { dotEntry ino name off with off := off' } = dotEntry ino name off' := rfl

theorem entries_eq (d : FatDir) (io : Io) (emit : σ → Dirent → Bool × σ) (s : σ)
    (h : DIR_DOTS_END ≤ position) :
    iterateLocked.entries d io emit s position =
      drain (d.positions io) emit (d.slots.length + DIR_DOTS_END - position) position
        (s, position) := by
  have hfu : d.slots.length - (position - DIR_DOTS_END) =
      d.slots.length + DIR_DOTS_END - position := by omega
  rw [iterateLocked.entries, hfu]
  symm
  apply drain_congr _ _ h
  · intro p hp
    exact if_neg (by omega)
  · intro p a q hnx
    have hlt := entryFrom_lt hnx
    omega

theorem iterateLocked_eq (emit : σ → Dirent → Bool × σ) (s : σ) (position : Nat) :
    d.iterateLocked io emit s position =
      drain (d.positions io) emit (d.slots.length + DIR_DOTS_END - position) position
        (s, position) := by
  rcases Nat.lt_or_ge position DIR_DOTS_END with hdots | hdots
  · have hfu : d.slots.length + DIR_DOTS_END - position =
        d.slots.length + (1 - position) + 1 := by
      simp only [DIR_DOTS_END] at hdots ⊢
      omega
    rw [iterateLocked, if_pos hdots, hfu, drain, positions, if_pos hdots]
    cases hpar : io.parent with
    | some e => rfl
    | none =>
      have hens := fun m => entries_eq d io emit m (Nat.le_refl DIR_DOTS_END)
      have hnx : d.positions io 1 =
          .ok (some (dotEntry d.parent DOTDOT DIR_DOTS_END, DIR_DOTS_END)) := by
        simp [positions, hpar]
      obtain rfl | rfl : position = 0 ∨ position = 1 := by
        simp only [DIR_DOTS_END] at hdots
        omega
      · rcases hdot : emit s (dotEntry d.ino DOT 1) with ⟨_ | _, m⟩
        · simp [dirEmitDots, dirEmit, dotEntry_off, hdot]
        · rcases hdd : emit m (dotEntry d.parent DOTDOT DIR_DOTS_END) with ⟨_ | _, m'⟩ <;>
            simp [dirEmitDots, dirEmit, dotEntry_off, hdot, hdd, drain, hnx, hens]
      · rcases hdd : emit s (dotEntry d.parent DOTDOT DIR_DOTS_END) with ⟨_ | _, m⟩ <;>
          simp [dirEmitDots, dirEmit, dotEntry_off, hdd, hens]
  · rw [iterateLocked, if_neg (by omega), entries_eq d io emit s hdots]

end FatDir

/-! ## In parts -/

/-- The consumer that never refuses. -/
def collect (entries : List Dirent) (entry : Dirent) : Bool × List Dirent :=
  (true, entries ++ [entry])

/-- No read of a FAT table fails. -/
def Dir.TableRead : Dir → Io → Prop
  | ext2 _, _ => True
  | fat d, io => d.TableRead io

/-- `iterate` hands over the entries that `next` enumerates: from every position that it may have
left behind up to one the consumer refuses, or all of them if the table could be read. -/
structure Enumerates (d : Dir) (next : Nat → Except Errno (Option (Dirent × Nat))) : Prop where
  iterate_ok : ∀ {σ : Type} {emit : σ → Dirent → Bool × σ} {io : Io} {s s' : σ} {as p p'},
    Lib.Walk next 0 as p → d.iterate io emit s p = (.ok (), s', p') →
    ∃ bs m, Lib.Walk next p bs p' ∧ Fed emit s bs m ∧
      (s' = m ∧ (d.TableRead io → next p' = .ok none) ∨
        ∃ a r, next p' = .ok (some (a, r)) ∧ emit m a = (false, s'))
  iterate_all : ∀ {as q}, Lib.Walk next 0 as q → next q = .ok none →
    ∃ p, d.iterate .none collect [] 0 = (.ok (), as, p)

theorem drain_follows (hb : Bounded next' bound) (hf : Follows full next' next)
    (h : drain next' emit (bound - p) p (s, p) = (.ok (), s', p')) :
    ∃ bs m, Lib.Walk next p bs p' ∧ Fed emit s bs m ∧ (s' = m ∧ (full → next p' = .ok none) ∨
      ∃ a r, next p' = .ok (some (a, r)) ∧ emit m a = (false, s')) := by
  obtain ⟨bs, q, m, hwk, hfed, hpos, hsp⟩ := drain_ok hb (Nat.le_refl _) h
  obtain rfl : p' = q := by
    rw [hpos]
    split
    next hnil =>
      subst hnil
      cases hwk
      rfl
    next => rfl
  refine ⟨bs, m, hwk.follow hf, hfed, hsp.imp (fun h => ⟨h.2, fun hfu => hf h.1 (.inr hfu)⟩) ?_⟩
  rintro ⟨a, r, hnx, hem⟩
  exact ⟨a, r, hf hnx (.inl rfl), hem⟩

theorem ext2_enumerates (d : Ext2Dir) : Enumerates (.ext2 d) (d.next .none) where
  iterate_ok {σ emit io s s' as p p'} hwk h := by
    simp only [Dir.iterate, Ext2Dir.iterateLocked] at h
    split at h
    · cases h
    next offset hali =>
      obtain rfl := Ext2Dir.direntAlign_eq (Ext2Dir.walk_chain hwk) hali
      exact drain_follows (Ext2Dir.next_bounded io) Ext2Dir.next_follows h
  iterate_all hwk hend := by
    exact ⟨_, drain_all (Ext2Dir.next_bounded .none) (Nat.le_refl _) hwk hend [] 0⟩

theorem fat_enumerates (d : FatDir) : Enumerates (.fat d) (d.positions .none) where
  iterate_ok {σ emit io s s' as p p'} _ h := by
    rw [Dir.iterate, FatDir.iterateLocked_eq] at h
    exact drain_follows (FatDir.positions_bounded io) FatDir.positions_follows h
  iterate_all hwk hend := by
    simp only [Dir.iterate, FatDir.iterateLocked_eq]
    exact ⟨_, drain_all (FatDir.positions_bounded .none) (Nat.le_refl _) hwk hend [] 0⟩

theorem enumerates (d : Dir) : ∃ next, Enumerates d next := by
  cases d with
  | ext2 d => exact ⟨_, ext2_enumerates d⟩
  | fat d => exact ⟨_, fat_enumerates d⟩

theorem iterate_invariant {I : σ → Prop} (hem : ∀ s a, I s → I (emit s a).2) (d : Dir) (io : Io)
    (s : σ) (position : Nat) (h : I s) : I (d.iterate io emit s position).2.1 := by
  cases d with
  | ext2 d =>
    simp only [Dir.iterate, Ext2Dir.iterateLocked]
    split
    · exact h
    · exact drain_invariant hem _ _ _ h
  | fat d =>
    rw [Dir.iterate, FatDir.iterateLocked_eq]
    exact drain_invariant hem _ _ _ h

/-- What is filled are the records, and they are within the buffer. -/
def GetdentsState.Fits (st : GetdentsState) : Prop :=
  st.filled = (st.records.map (·.reclen)).sum ∧ st.filled ≤ st.size

theorem getdentsEmit_fits (st : GetdentsState) (entry : Dirent) (h : st.Fits) :
    (getdentsEmit st entry).2.Fits := by
  unfold getdentsEmit
  split
  · exact h
  obtain ⟨hsum, hle⟩ := h
  refine ⟨?_, ?_⟩
  · simp [hsum]
  · simp only
    omega

theorem getdentsEmit_size (size : Nat) (st : GetdentsState) (entry : Dirent) (h : st.size = size) :
    (getdentsEmit st entry).2.size = size := by
  unfold getdentsEmit
  split <;> exact h

theorem direntRecordSize_pos (entry : Dirent) : 0 < direntRecordSize entry := by
  simp only [direntRecordSize, DIRENT_ALIGNMENT]
  omega

theorem fed_records (h : Fed getdentsEmit st entries st') :
    st'.records.map (·.entry) = st.records.map (·.entry) ++ entries ∧
      st.filled + entries.length ≤ st'.filled := by
  induction h with
  | nil => simp
  | @cons st entry st1 entries st' hem _ ih =>
    obtain ⟨hrec, hfilled⟩ := ih
    have hpos := direntRecordSize_pos entry
    unfold getdentsEmit at hem
    split at hem
    · cases hem
    cases hem
    refine ⟨by simp [hrec], ?_⟩
    simp only [List.length_cons] at hfilled ⊢
    omega

theorem getdentsFile_error (h : getdentsFile d c position = (.error e, p)) : p = position := by
  unfold getdentsFile at h
  split at h
  · cases h
    rfl
  split at h
  · cases h
    rfl
  split at h
  · cases h
    rfl
  · cases h

theorem getdentsFile_ok (h : getdentsFile d c position = (.ok (n, records), p)) :
    ∃ st, d.iterate c.io getdentsEmit
        { size := min c.size GETDENTS_CHUNK_SIZE, filled := 0, full := false, records := [] }
        position = (.ok (), st, p) ∧
      ¬ (st.filled = 0 ∧ st.full) ∧ n = st.filled ∧ records = st.records := by
  unfold getdentsFile at h
  split at h
  · cases h
  next st next hite =>
    split at h
    · cases h
    next hrm =>
      split at h
      · cases h
      · cases h
        exact ⟨st, hite, hrm, rfl, rfl⟩

theorem getdentsFile_fits {c : Call} (h : getdentsFile d c position = (.ok (n, records), p)) :
    n = (records.map (·.reclen)).sum ∧ n ≤ c.size := by
  obtain ⟨st, hite, -, rfl, rfl⟩ := getdentsFile_ok h
  have hfits := iterate_invariant getdentsEmit_fits d c.io
    { size := min c.size GETDENTS_CHUNK_SIZE, filled := 0, full := false, records := [] } position
    ⟨rfl, Nat.zero_le _⟩
  have hsz := iterate_invariant (getdentsEmit_size (min c.size GETDENTS_CHUNK_SIZE)) d c.io
    { size := min c.size GETDENTS_CHUNK_SIZE, filled := 0, full := false, records := [] } position
    rfl
  rw [hite] at hfits hsz
  have hle : st.filled ≤ min c.size GETDENTS_CHUNK_SIZE := hsz ▸ hfits.2
  exact ⟨hfits.1, by omega⟩

/-- A call that succeeds goes on with the walk, and one that returns 0 is at its end, if the table
could be read. -/
theorem getdentsFile_walk (hd : Enumerates d next) (hwk : Lib.Walk next 0 as position)
    (h : getdentsFile d c position = (.ok (n, records), p)) :
    Lib.Walk next position (records.map (·.entry)) p ∧
      (n = 0 → p = position ∧ (d.TableRead c.io → next p = .ok none)) := by
  obtain ⟨st, hite, hrm, rfl, rfl⟩ := getdentsFile_ok h
  obtain ⟨bs, m, hbs, hfed, hsp⟩ := hd.iterate_ok hwk hite
  obtain ⟨hrec, hfilled⟩ := fed_records hfed
  rcases hsp with ⟨rfl, hend⟩ | ⟨a, r, hnx, href⟩
  · refine ⟨by simpa [hrec] using hbs, fun h0 => ⟨?_, hend⟩⟩
    obtain rfl : bs = [] := List.eq_nil_of_length_eq_zero (by omega)
    cases hbs
    rfl
  · unfold getdentsEmit at href
    split at href
    · cases href
      exact ⟨by simpa [hrec] using hbs, fun h0 => absurd ⟨h0, rfl⟩ hrm⟩
    · cases href

theorem getdentsAll_walk (hd : Enumerates d next) (calls : List Call)
    (hwk : Lib.Walk next 0 as position) :
    Lib.Walk next position ((getdentsAll d calls position).1.map (·.entry))
      (getdentsAll d calls position).2 := by
  induction calls generalizing position as with
  | nil => exact .nil
  | cons c calls ih =>
    rw [getdentsAll]
    split
    next h =>
      obtain rfl := getdentsFile_error h
      exact ih hwk
    next h =>
      obtain ⟨hpart, -⟩ := getdentsFile_walk hd hwk h
      rw [List.map_append]
      exact hpart.append (ih (hwk.append hpart))

/-- **Reading a directory in parts equals reading it at once.** When a sequence of calls from
position zero on has come to the one that returns 0, and in that one no read of the FAT table
failed, the names and inode numbers of the records are those that `iterate` from position zero hands
to a consumer that never refuses. A call that fails leaves the position where it was, and the
records of a call are within its buffer. -/
theorem getdents_in_parts (d : Dir) :
    (∀ (calls : List Call) (last : Call) (records : List Record) (p : Nat),
      getdentsFile d last (getdentsAll d calls 0).2 = (.ok (0, records), p) →
      d.TableRead last.io →
      ∃ all q, d.iterate .none collect [] 0 = (.ok (), all, q) ∧
        (getdentsAll d calls 0).1.map (fun r => (r.entry.name, r.entry.ino)) =
          all.map fun e => (e.name, e.ino)) ∧
    (∀ (c : Call) (position : Nat) (e : Errno) (p : Nat),
      getdentsFile d c position = (.error e, p) → p = position) ∧
    ∀ (c : Call) (position n : Nat) (records : List Record) (p : Nat),
      getdentsFile d c position = (.ok (n, records), p) →
      n = (records.map (·.reclen)).sum ∧ n ≤ c.size := by
  refine ⟨fun calls last records p h htable => ?_, fun c position e p h => getdentsFile_error h,
    fun c position n records p h => getdentsFile_fits h⟩
  obtain ⟨next, hd⟩ := enumerates d
  have hparts := getdentsAll_walk hd calls .nil
  obtain ⟨rfl, hend⟩ := (getdentsFile_walk hd hparts h).2 rfl
  obtain ⟨q, hall⟩ := hd.iterate_all hparts (hend htable)
  exact ⟨_, q, hall, by simp⟩

/-- The file `A` in the second cluster of a directory whose clusters are of 16 entries. -/
def twoClusters : FatDir where
  slots := List.replicate 16 ⟨fun _ => FAT_NAME_DELETED⟩ ++
    [⟨fun i => if i = 0 then 65 else if i < 12 then 32 else 0⟩, ⟨fun _ => FAT_NAME_END⟩]
  firstEntries := 16
  nodenumber := id
  ino := 5
  parent := 0

def okCall (size : Nat) : Call := { size, io := .none, copyout := fun _ => none }

/-- Calls with room for one entry, for too little, for one but with a fault, and for two. -/
def smallCalls : List Call :=
  [okCall 24, okCall 23, { okCall 24 with copyout := fun _ => some .EFAULT }, okCall 48]

theorem getdents_in_parts_twoClusters : ∃ all q,
    (Dir.fat twoClusters).iterate .none collect [] 0 = (.ok (), all, q) ∧
      [(DOT, 5), (DOTDOT, 0), ([65], 16)] = all.map fun e => (e.name, e.ino) := by
  have hlast : getdentsFile (.fat twoClusters) (okCall 24)
      (getdentsAll (.fat twoClusters) smallCalls 0).2 = (.ok (0, []), 19) := by
    decide +kernel
  exact (getdents_in_parts (.fat twoClusters)).1 smallCalls _ [] 19 hlast fun _ _ => rfl

/-- The table cannot be read when the second cluster is reached. -/
def lostTable : Call := { okCall 48 with io := { Io.none with table := fun i => i = 16 } }

/-- One failed read of the table is taken for the end of the directory: `A` is missing. -/
theorem failed_table_read_ends_directory :
    getdentsFile (.fat twoClusters) lostTable (getdentsAll (.fat twoClusters) [okCall 48] 0).2 =
        (.ok (0, []), 2) ∧
      (getdentsAll (.fat twoClusters) [okCall 48] 0).1.map (fun r => (r.entry.name, r.entry.ino)) =
        [(DOT, 5), (DOTDOT, 0)] ∧
      ((Dir.fat twoClusters).iterate .none collect [] 0).2.1.map (fun e => (e.name, e.ino)) =
        [(DOT, 5), (DOTDOT, 0), ([65], 16)] := by
  decide +kernel

end Vex.Fs.Dirents
