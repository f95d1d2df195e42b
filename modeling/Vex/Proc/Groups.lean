import Vex.Libk.Sort
import Vex.Proc.Cred

/-! Supplementary groups (`cred_sort_groups`, `cred_in_group`, `sys_setgroups`): the list a process
installs is sorted on the way, and the membership test searches it by halving. -/

namespace Vex.Proc

open Fs

def compareGids (a b : Int) : Int := if a < b then -1 else if a > b then 1 else 0

theorem compareGids_nonpos : compareGids a b ≤ 0 ↔ a ≤ b := by
  unfold compareGids
  split
  · omega
  split <;> omega

theorem compares_gids : Libk.Compares compareGids where
  trans h h' := compareGids_nonpos.mpr <| (compareGids_nonpos.mp h).trans (compareGids_nonpos.mp h')
  flip := by
    intro a b
    rw [compareGids_nonpos, compareGids]
    split
    · omega
    split <;> omega

/-- In a sorted list the search finds what lies between its bounds. -/
theorem groupSearch_iff {groups : Array Int} {gid : Int}
    (hsrt : groups.toList.Pairwise (· ≤ ·)) (hhi : high ≤ groups.size) :
    groupSearch groups gid low high ↔ ∃ i, low ≤ i ∧ i < high ∧ groups.getD i 0 = gid := by
  have hle (i j : Nat) (hij : i ≤ j) (hj : j < groups.size) :
      groups.getD i 0 ≤ groups.getD j 0 := by
    rcases eq_or_lt_of_le hij with rfl | hij
    · exact le_rfl
    · have := List.pairwise_iff_getElem.mp hsrt i j (hij.trans hj) hj hij
      simpa [hj, hij.trans hj] using this
  fun_induction groupSearch groups gid low high with
  | case1 low high hlt mid group heq => exact iff_of_true rfl ⟨mid, by omega, by omega, heq⟩
  | case2 low high hlt mid group hne hless ih =>
    refine (ih hhi).trans ?_
    refine exists_congr fun i => ⟨fun ⟨h, h'⟩ => ⟨by omega, h'⟩, fun ⟨h, hi, heq⟩ => ?_⟩
    -- up to the middle all ids are too small
    have := mt (hle i mid · (by omega)) (by omega)
    exact ⟨by omega, hi, heq⟩
  | case3 low high hlt mid group hne hless ih =>
    refine (ih (by omega)).trans ?_
    refine exists_congr fun i => and_congr_right fun h =>
      ⟨fun ⟨hi, h'⟩ => ⟨by omega, h'⟩, fun ⟨hi, heq⟩ => ?_⟩
    have := mt (hle mid i · (by omega)) (by omega)
    exact ⟨by omega, heq⟩
  | case4 low high hlt => exact iff_of_false Bool.false_ne_true fun ⟨i, hi⟩ => by omega

theorem credInGroup_iff {c : Fs.Credentials} (hsrt : c.groups.toList.Pairwise (· ≤ ·)) :
    credInGroup c gid ↔ gid = c.egid ∨ gid ∈ c.groups := by
  rw [credInGroup, Bool.or_eq_true, groupSearch_iff hsrt le_rfl, beq_iff_eq, eq_comm,
    Array.mem_iff_getElem]
  refine or_congr_right (exists_congr fun i => ?_)
  constructor
  · rintro ⟨-, hi, h⟩
    exact ⟨hi, by simpa [hi] using h⟩
  · rintro ⟨hi, h⟩
    exact ⟨Nat.zero_le _, hi, by simpa [hi] using h⟩

namespace Credentials

def credSortGroups (c : Credentials) : Except Errno Credentials :=
  if c.groups.toList.any (· < 0) then .error .EINVAL
  else .ok { c with groups := Libk.sort compareGids c.groups }

/-- `sys_setgroups`, given whether `cred_copy_ids` gets its memory and what `user_copyin`
answers. -/
def sysSetgroups (c : Credentials) (maxGroups : Nat) (given : Array Int) (allocated : Bool)
    (copied : Except Errno Unit) : Except Errno Credentials :=
  if maxGroups < given.size then .error .EINVAL
  else if !credCapable c.toCredentials CAP_SETGID then .error .EPERM
  else if !allocated then .error .ENOMEM
  else do
    copied
    credSortGroups { c with groups := given }

theorem sort_gids (groups : Array Int) : (Libk.sort compareGids groups).toList.Pairwise (· ≤ ·) :=
  (Libk.sort_spec compares_gids groups).1.imp compareGids_nonpos.mp

/-- Where it gets as far as the ids, the call is the `setgroups` of the credential calls, which
sorts in another way. -/
theorem sysSetgroups_eq (h : given.size ≤ maxGroups) :
    sysSetgroups c maxGroups given true (.ok ()) = c.setgroups given.toList := by
  have hsort : Libk.sort compareGids given = (given.toList.mergeSort (· ≤ ·)).toArray := by
    apply Array.ext'
    have hpm := (Libk.sort_spec compares_gids given).2
    refine (hpm.toList.trans (List.mergeSort_perm ..).symm).eq_of_pairwise
      (fun _ _ _ _ => le_antisymm) (sort_gids given) ?_
    simpa using @List.pairwise_mergeSort _ (fun a b : Int => a ≤ b)
      (by simpa using fun _ _ _ => le_trans) (by simpa using le_total) given.toList
  rw [sysSetgroups, if_neg (by omega), setgroups, ← hsort]
  rfl

/-- Membership is exact: the installed list is the given one sorted, only negative ids are
refused, and a group is found if and only if it was given. -/
theorem groups_exact (c : Credentials) (given : Array Int) :
    ((∃ e, credSortGroups { c with groups := given } = .error e) ↔ ∃ id ∈ given, id < 0) ∧
      ∀ maxGroups allocated copied c',
        sysSetgroups c maxGroups given allocated copied = .ok c' →
          c'.groups.toList.Pairwise (· ≤ ·) ∧ c'.groups.Perm given ∧
            ∀ gid, credInGroup c'.toCredentials gid ↔ gid = c'.egid ∨ gid ∈ given := by
  constructor
  · have hany : given.toList.any (· < 0) ↔ ∃ id ∈ given, id < 0 := by
      simp only [List.any_eq_true, Array.mem_toList_iff, decide_eq_true_eq]
    rw [← hany, credSortGroups]
    split
    next h => exact iff_of_true ⟨_, rfl⟩ h
    next h => exact iff_of_false nofun h
  intro maxGroups allocated copied c' h
  unfold sysSetgroups at h
  simp only [guard_eq_ok] at h
  obtain ⟨_, -, hok⟩ := bind_eq_ok.mp h.2.2.2
  unfold credSortGroups at hok
  cases (guard_eq_ok.mp hok).2
  have hperm := (Libk.sort_spec compares_gids given).2
  refine ⟨sort_gids given, hperm, fun gid => ?_⟩
  rw [credInGroup_iff (sort_gids given), ← hperm.mem_iff]

theorem groups_exact_three :
    credInGroup { kernelCredentials with
      groups := Libk.sort compareGids #[7, 3, 7] }.toCredentials 3 :=
  (((groups_exact kernelCredentials #[7, 3, 7]).2 8 true (.ok ()) _ rfl).2.2 3).mpr
    (.inr (by simp))

end Credentials

end Vex.Proc
