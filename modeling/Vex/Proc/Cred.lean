import Vex.Fs.Access
import Vex.Lib.BitSet
import Vex.Lib.Run

/-! Credentials (`cred.c`, `exec_cred` of `sys_process.c`): the calls that change a process's user
ids, group ids and capability sets. Every call works on a copy, which replaces the process's
credentials if the call succeeds. -/

namespace Vex.Proc

open Lib Fs Within

abbrev CapSet := BitVec 64

abbrev CAP_SETGID : Nat := 6
abbrev CAP_SETUID : Nat := 7

abbrev CAPS_KEEP : BitVec 32 := 1

/-- The argument that leaves an id as it is. -/
abbrev ID_UNCHANGED : Int := -1

/-- `credentials_t`, without its reference count. -/
structure Credentials extends Fs.Credentials where
  uid : Int
  suid : Int
  gid : Int
  sgid : Int
  capPermitted : CapSet
  capAmbient : CapSet
  capBounding : CapSet
  capFlags : BitVec 32
  deriving DecidableEq, Repr

def kernelCredentials : Credentials where
  toCredentials := Fs.kernelCredentials
  uid := 0
  suid := 0
  gid := 0
  sgid := 0
  capPermitted := BitVec.allOnes 64
  capAmbient := 0
  capBounding := BitVec.allOnes 64
  capFlags := 0

/-- `caps_t`, the argument of `capset`. -/
structure Caps where
  effective : CapSet
  permitted : CapSet
  ambient : CapSet
  bounding : CapSet
  flags : BitVec 32
  reserved : BitVec 32
  deriving DecidableEq, Repr

/-- `file_caps_t`; its inheritable set is never read. -/
structure FileCaps where
  permitted : CapSet
  effective : Bool
  deriving DecidableEq, Repr

def checkId (wanted r e s : Int) (capable : Bool) : Except Errno Unit :=
  if wanted < ID_UNCHANGED then .error .EINVAL
  else if capable ∨ wanted = ID_UNCHANGED ∨ wanted = r ∨ wanted = e ∨ wanted = s then .ok ()
  else .error .EPERM

def checkRes (newR newE newS r e s : Int) (capable : Bool) : Except Errno Unit := do
  checkId newR r e s capable
  checkId newE r e s capable
  checkId newS r e s capable

def applyId (id wanted : Int) : Int := if wanted ≠ ID_UNCHANGED then wanted else id

namespace Credentials

/-- One of the user ids is root's. -/
def anyRoot (c : Credentials) : Prop := c.uid = 0 ∨ c.euid = 0 ∨ c.suid = 0

instance (c : Credentials) : Decidable c.anyRoot := inferInstanceAs (Decidable (_ ∨ _))

/-- `fixup_caps`, after the user ids of `old` were replaced by those of `c`. -/
def fixupCaps (c old : Credentials) : Credentials :=
  let gone := old.anyRoot ∧ ¬c.anyRoot ∧ c.capFlags &&& CAPS_KEEP = 0
  let permitted := if gone then 0 else c.capPermitted
  let ambient := if gone then 0 else c.capAmbient
  let effective :=
    if old.euid = 0 ∧ c.euid ≠ 0 then 0
    else if old.euid ≠ 0 ∧ c.euid = 0 then permitted
    else c.capEffective
  { c with capPermitted := permitted, capAmbient := ambient, capEffective := effective }

def credSetcaps (c : Credentials) (caps : Caps) : Except Errno Credentials :=
  if caps.flags &&& ~~~CAPS_KEEP ≠ 0 ∨ caps.reserved ≠ 0 then .error .EINVAL
  else if ¬Within caps.permitted c.capPermitted ∨ ¬Within caps.bounding c.capBounding then
    .error .EPERM
  else if ¬Within caps.effective caps.permitted ∨ ¬Within caps.ambient caps.permitted then
    .error .EPERM
  else .ok { c with
    capEffective := caps.effective, capPermitted := caps.permitted, capAmbient := caps.ambient,
    capBounding := caps.bounding, capFlags := caps.flags }

/-- The user ids `setresuid` sets. -/
def withUids (c : Credentials) (ruid euid suid : Int) : Credentials :=
  { c with uid := applyId c.uid ruid, euid := applyId c.euid euid, suid := applyId c.suid suid }

def credSetresuid (c : Credentials) (ruid euid suid : Int) : Except Errno Credentials := do
  checkRes ruid euid suid c.uid c.euid c.suid (credCapable c.toCredentials CAP_SETUID)
  return (c.withUids ruid euid suid).fixupCaps c

def credSetresgid (c : Credentials) (rgid egid sgid : Int) : Except Errno Credentials := do
  checkRes rgid egid sgid c.gid c.egid c.sgid (credCapable c.toCredentials CAP_SETGID)
  return { c with gid := applyId c.gid rgid, egid := applyId c.egid egid,
                  sgid := applyId c.sgid sgid }

/-- `sys_setgroups` from the capability check on, with `cred_sort_groups`. -/
def setgroups (c : Credentials) (groups : List Int) : Except Errno Credentials :=
  if !credCapable c.toCredentials CAP_SETGID then .error .EPERM
  else if groups.any (· < 0) then .error .EINVAL
  else .ok { c with groups := (groups.mergeSort (· ≤ ·)).toArray }

/-- The ambient set is for programs that get nothing else. -/
def execAmbient (c : Credentials) (privileged : Bool) (file : Option FileCaps) : CapSet :=
  if privileged ∨ file.isSome then 0 else c.capAmbient

/-- `cred_exec_caps`: its answer, and the credentials it leaves, also where it fails. -/
def credExecCaps (c : Credentials) (privileged : Bool) (file : Option FileCaps) :
    Except Errno Unit × Credentials :=
  let ambient := c.execAmbient privileged file
  if c.euid = 0 then
    (.ok (), { c with
      capFlags := 0, capPermitted := c.capBounding, capAmbient := ambient &&& c.capBounding,
      capEffective := c.capBounding })
  else
    let permitted := ambient &&& c.capBounding
    let started := { c with
      capFlags := 0, capPermitted := permitted, capAmbient := ambient &&& permitted,
      capEffective := ambient &&& permitted }
    match file with
    | none => (.ok (), started)
    | some file =>
      if file.effective ∧ ¬Within file.permitted c.capBounding then (.error .EPERM, started)
      else
        let permitted := permitted ||| file.permitted &&& c.capBounding
        (.ok (), { started with
          capPermitted := permitted,
          capEffective := if file.effective then permitted else started.capEffective })

/-- The ids a program starts with, given the `stat_t` of its file. -/
def execIds (c : Credentials) (st : Stat) : Credentials :=
  let euid := if st.mode &&& S_ISUID ≠ 0 then st.uid else c.euid
  let egid := if st.mode &&& S_ISGID ≠ 0 ∧ st.mode &&& S_IXGRP ≠ 0 then st.gid else c.egid
  { c with euid := euid, egid := egid, suid := euid, sgid := egid }

/-- `exec_cred`: the answer and the copy it worked on. -/
def execCred (c : Credentials) (st : Stat) (file : Option FileCaps) :
    Except Errno Unit × Credentials :=
  let setuid := st.mode &&& S_ISUID ≠ 0
  let setgid := st.mode &&& S_ISGID ≠ 0 ∧ st.mode &&& S_IXGRP ≠ 0
  (c.execIds st).credExecCaps (setuid ∨ setgid) file

end Credentials

/-- The calls that change credentials. -/
inductive CredCall
  | setcaps (caps : Caps)
  | setresuid (ruid euid suid : Int)
  | setresgid (rgid egid sgid : Int)
  | setgroups (groups : List Int)
  | exec (st : Stat) (file : Option FileCaps)
  deriving DecidableEq, Repr

/-- The answer of a call and the copy it worked on. -/
def CredCall.run (c : Credentials) : CredCall → Except Errno Unit × Credentials
  | setcaps caps => settle (c.credSetcaps caps)
  | setresuid ruid euid suid => settle (c.credSetresuid ruid euid suid)
  | setresgid rgid egid sgid => settle (c.credSetresgid rgid egid sgid)
  | setgroups groups => settle (c.setgroups groups)
  | exec st file => c.execCred st file
where
  /-- All calls but the last leave the copy alone where they fail. -/
  settle : Except Errno Credentials → Except Errno Unit × Credentials
  | .ok c' => (.ok (), c')
  | .error e => (.error e, c)

/-- A call takes credentials to the copy it worked on, or, if it failed, leaves them behind. -/
def CredStep (c : Credentials) (call : CredCall) (c' : Credentials) : Prop :=
  c' = (call.run c).2 ∨ (call.run c).1 ≠ .ok () ∧ c' = c

/-- The credentials after calls that each go on from the copy of the one before. -/
def afterCalls (c : Credentials) (calls : List CredCall) : Credentials :=
  calls.foldl (fun c call => (call.run c).2) c

namespace Credentials

/-! ## Well-formed capability sets -/

/-- What is in effect, and what survives an exec, is permitted. -/
structure WellFormed (c : Credentials) : Prop where
  effective : Within c.capEffective c.capPermitted
  ambient : Within c.capAmbient c.capPermitted

/-- `setresuid` takes the last root id away from credentials that run as someone else already,
with capabilities raised again and no `CAPS_KEEP`. -/
def StrandsEffective (c : Credentials) : CredCall → Prop
  | .setresuid ruid euid suid =>
    checkRes ruid euid suid c.uid c.euid c.suid (credCapable c.toCredentials CAP_SETUID) = .ok () ∧
      c.anyRoot ∧ ¬(c.withUids ruid euid suid).anyRoot ∧ c.capFlags &&& CAPS_KEEP = 0 ∧
      c.euid ≠ 0 ∧ c.capEffective ≠ 0
  | _ => False

variable {c c' : Credentials}

theorem kernelCredentials_wellFormed : kernelCredentials.WellFormed := ⟨refl _, zero _⟩

/-- `credSetcaps` succeeds with sets no larger than the ones before, in the order it checks. -/
theorem credSetcaps_ok (h : c.credSetcaps caps = .ok c') :
    Within caps.permitted c.capPermitted ∧ Within caps.bounding c.capBounding ∧
      Within caps.effective caps.permitted ∧ Within caps.ambient caps.permitted ∧
      c' = { c with
        capEffective := caps.effective, capPermitted := caps.permitted,
        capAmbient := caps.ambient, capBounding := caps.bounding, capFlags := caps.flags } := by
  unfold credSetcaps at h
  simp only [guard_eq_ok, not_or, not_not, Except.ok.injEq] at h
  obtain ⟨-, ⟨hper, hbnd⟩, ⟨heff, hamb⟩, rfl⟩ := h
  exact ⟨hper, hbnd, heff, hamb, rfl⟩

theorem credSetresuid_ok {suid : Int} (h : c.credSetresuid ruid euid suid = .ok c') :
    checkRes ruid euid suid c.uid c.euid c.suid (credCapable c.toCredentials CAP_SETUID) = .ok () ∧
      c' = (c.withUids ruid euid suid).fixupCaps c := by
  obtain ⟨⟨⟩, hchk, hok⟩ := bind_eq_ok.mp h
  exact ⟨hchk, (Except.ok.inj hok).symm⟩

/-- What `setresgid` and `setgroups` keep: every capability set. -/
def SameCaps (c c' : Credentials) : Prop :=
  c'.capEffective = c.capEffective ∧ c'.capPermitted = c.capPermitted ∧
    c'.capAmbient = c.capAmbient ∧ c'.capBounding = c.capBounding

theorem credSetresgid_ok {sgid : Int} (h : c.credSetresgid rgid egid sgid = .ok c') :
    c.SameCaps c' := by
  obtain ⟨_, -, hok⟩ := bind_eq_ok.mp h
  cases Except.ok.inj hok
  exact ⟨rfl, rfl, rfl, rfl⟩

theorem setgroups_ok (h : c.setgroups groups = .ok c') : c.SameCaps c' := by
  unfold setgroups at h
  simp only [guard_eq_ok, Except.ok.injEq] at h
  obtain ⟨-, -, rfl⟩ := h
  exact ⟨rfl, rfl, rfl, rfl⟩

theorem WellFormed.fixupCaps {suid : Int} (h : c.WellFormed)
    (hok : c.anyRoot → ¬(c.withUids ruid euid suid).anyRoot → c.capFlags &&& CAPS_KEEP = 0 →
      c.euid ≠ 0 → c.capEffective = 0) : ((c.withUids ruid euid suid).fixupCaps c).WellFormed := by
  generalize hc : c.withUids ruid euid suid = n at hok
  have heff : n.capEffective = c.capEffective := by subst hc; rfl
  have hper : n.capPermitted = c.capPermitted := by subst hc; rfl
  have hamb : n.capAmbient = c.capAmbient := by subst hc; rfl
  have hflg : n.capFlags = c.capFlags := by subst hc; rfl
  constructor
  · simp only [Credentials.fixupCaps]
    split
    · exact zero _
    split
    · exact refl _
    split
    case isFalse => exact heff ▸ hper ▸ h.effective
    case isTrue h0 hrt hgn =>
      -- nobody is root any more, and it was not the effective id that was
      have heuid : c.euid ≠ 0 := fun he => h0 ⟨he, fun hn => hgn.2.1 (.inr (.inl hn))⟩
      rw [heff, hok hgn.1 hgn.2.1 (hflg ▸ hgn.2.2) heuid]
      exact zero _
  · simp only [Credentials.fixupCaps]
    split
    · exact zero _
    · exact hamb ▸ hper ▸ h.ambient

theorem credExecCaps_wellFormed (privileged : Bool) (file : Option FileCaps) :
    (c.credExecCaps privileged file).2.WellFormed := by
  unfold credExecCaps
  split
  · exact ⟨refl _, and_right _ _⟩
  cases file with
  | none => exact ⟨and_right _ _, and_right _ _⟩
  | some file =>
    simp only
    split
    · exact ⟨and_right _ _, and_right _ _⟩
    refine ⟨?_, (and_right _ _).or_right _⟩
    split
    · exact refl _
    · exact (and_right _ _).or_right _

/-- **Rule for calls** that leave the copy alone where they fail. -/
theorem settle_rule {P : Credentials → Prop} (h : P c) (hok : ∀ c', r = .ok c' → P c') :
    P (CredCall.run.settle c r).2 := by
  cases r with
  | ok c' => exact hok c' rfl
  | error e => exact h

theorem WellFormed.congr (h : c.WellFormed) (hsame : c.SameCaps c') : c'.WellFormed := by
  obtain ⟨heff, hper, hamb, -⟩ := hsame
  exact ⟨heff ▸ hper ▸ h.effective, hamb ▸ hper ▸ h.ambient⟩

/-- A call keeps the capability sets well formed, unless it strands the effective ones. -/
theorem WellFormed.step (h : c.WellFormed) (hok : ¬c.StrandsEffective call)
    (hs : CredStep c call c') : c'.WellFormed := by
  rcases hs with rfl | ⟨-, rfl⟩
  case inr => exact h
  cases call with
  | setcaps caps =>
    refine settle_rule h fun c' hcl => ?_
    obtain ⟨-, -, heff, hamb, rfl⟩ := credSetcaps_ok hcl
    exact ⟨heff, hamb⟩
  | setresuid ruid euid suid =>
    refine settle_rule h fun c' hcl => ?_
    obtain ⟨hchk, rfl⟩ := credSetresuid_ok hcl
    exact h.fixupCaps fun hrt hgn hkeep heuid =>
      by_contra fun heff => hok ⟨hchk, hrt, hgn, hkeep, heuid, heff⟩
  | setresgid => exact settle_rule h fun c' hcl => h.congr (credSetresgid_ok hcl)
  | setgroups => exact settle_rule h fun c' hcl => h.congr (setgroups_ok hcl)
  | exec st file => exact credExecCaps_wellFormed _ _

/-- **Credentials stay well formed** along every sequence of calls none of which takes the last
root id from credentials with another effective id and capabilities still in effect. -/
theorem credentials_well_formed {calls : List CredCall}
    (h : Run (Under (fun c call => ¬c.StrandsEffective call) CredStep) kernelCredentials calls c) :
    c.WellFormed :=
  h.invariant (I := WellFormed) (fun hc hs => hc.step hs.1 hs.2) kernelCredentials_wellFormed

/-- `capset` with every capability that is permitted raised again. -/
def raiseAll : CredCall :=
  .setcaps { effective := BitVec.allOnes 64, permitted := BitVec.allOnes 64, ambient := 0,
             bounding := BitVec.allOnes 64, flags := 0, reserved := 0 }

/-- A daemon that takes another user's id for a while, comes back and gives root up for good. -/
def daemonCalls : List CredCall :=
  [.setresuid (-1) 5 (-1), raiseAll, .setresuid (-1) 0 (-1), .setresuid 5 5 5]

theorem credentials_well_formed_daemon :
    Run (Under (fun c call => ¬c.StrandsEffective call) CredStep) kernelCredentials daemonCalls
        (afterCalls kernelCredentials daemonCalls) ∧
      (afterCalls kernelCredentials daemonCalls).capPermitted = 0 ∧
      (afterCalls kernelCredentials daemonCalls).WellFormed := by
  have hrun : Run (Under (fun c call => ¬c.StrandsEffective call) CredStep) kernelCredentials
      daemonCalls (afterCalls kernelCredentials daemonCalls) :=
    .cons ⟨fun h => h.2.2.1 (.inl rfl), .inl rfl⟩ <|
    .cons ⟨id, .inl rfl⟩ <|
    .cons ⟨fun h => h.2.2.1 (.inl rfl), .inl rfl⟩ <|
    .cons ⟨fun h => h.2.2.2.2.1 rfl, .inl rfl⟩ .nil
  exact ⟨hrun, by decide, credentials_well_formed hrun⟩

/-- The effective and saved ids are given away, the capabilities raised again, and then the real
id is given away. -/
def strandingCalls : List CredCall :=
  [.setresuid (-1) 5 5, raiseAll, .setresuid 5 (-1) (-1)]

/-- The last call clears the permitted set and leaves all of the effective one. -/
theorem effective_outlives_permitted :
    Run CredStep kernelCredentials strandingCalls (afterCalls kernelCredentials strandingCalls) ∧
      (afterCalls kernelCredentials strandingCalls).capEffective = BitVec.allOnes 64 ∧
      (afterCalls kernelCredentials strandingCalls).capPermitted = 0 ∧
      ¬(afterCalls kernelCredentials strandingCalls).WellFormed :=
  ⟨.cons (.inl rfl) (.cons (.inl rfl) (.cons (.inl rfl) .nil)), by decide, by decide,
    fun h => absurd h.effective (by decide)⟩

/-! ## Dropped capabilities -/

/-- The capability is in none of the four sets. -/
structure Lacks (c : Credentials) (cap : Nat) : Prop where
  permitted : c.capPermitted.getLsbD cap = false
  effective : c.capEffective.getLsbD cap = false
  ambient : c.capAmbient.getLsbD cap = false
  bounding : c.capBounding.getLsbD cap = false

variable {cap : Nat}

theorem Lacks.fixupCaps (h : c.Lacks cap) : (c.fixupCaps old).Lacks cap := by
  have hper : (c.fixupCaps old).capPermitted.getLsbD cap = false := by
    simp only [Credentials.fixupCaps]
    split
    · simp
    · exact h.permitted
  refine ⟨hper, ?_, ?_, h.bounding⟩
  · simp only [Credentials.fixupCaps] at hper ⊢
    split
    · simp
    split
    · exact hper
    · exact h.effective
  · simp only [Credentials.fixupCaps]
    split
    · simp
    · exact h.ambient

theorem Lacks.credExecCaps (h : c.Lacks cap) (privileged : Bool) (file : Option FileCaps) :
    (c.credExecCaps privileged file).2.Lacks cap := by
  have hand : ∀ s : CapSet, (s &&& c.capBounding).getLsbD cap = false := fun s => by
    simp [h.bounding]
  unfold Credentials.credExecCaps
  split
  · exact ⟨h.bounding, h.bounding, hand _, h.bounding⟩
  cases file with
  | none => exact ⟨hand _, by simp [h.bounding], by simp [h.bounding], h.bounding⟩
  | some file =>
    simp only
    split
    · exact ⟨hand _, by simp [h.bounding], by simp [h.bounding], h.bounding⟩
    · refine ⟨by simp [h.bounding], ?_, by simp [h.bounding], h.bounding⟩
      split <;> simp [h.bounding]

theorem Lacks.congr (h : c.Lacks cap) (hsame : c.SameCaps c') : c'.Lacks cap := by
  obtain ⟨heff, hper, hamb, hbnd⟩ := hsame
  exact ⟨hper ▸ h.permitted, heff ▸ h.effective, hamb ▸ h.ambient,
    hbnd ▸ h.bounding⟩

theorem Lacks.step (h : c.Lacks cap) (hs : CredStep c call c') : c'.Lacks cap := by
  rcases hs with rfl | ⟨-, rfl⟩
  case inr => exact h
  cases call with
  | setcaps caps =>
    refine settle_rule (P := (Lacks · cap)) h fun c' hcl => ?_
    obtain ⟨hper, hbnd, heff, hamb, rfl⟩ := credSetcaps_ok hcl
    have hlac := hper.lacks h.permitted
    exact ⟨hlac, heff.lacks hlac, hamb.lacks hlac, hbnd.lacks h.bounding⟩
  | setresuid ruid euid suid =>
    refine settle_rule (P := (Lacks · cap)) h fun c' hcl => ?_
    obtain ⟨-, rfl⟩ := credSetresuid_ok hcl
    exact Lacks.fixupCaps ⟨h.permitted, h.effective, h.ambient, h.bounding⟩
  | setresgid =>
    exact settle_rule (P := (Lacks · cap)) h fun c' hcl => h.congr (credSetresgid_ok hcl)
  | setgroups =>
    exact settle_rule (P := (Lacks · cap)) h fun c' hcl => h.congr (setgroups_ok hcl)
  | exec st file =>
    exact Lacks.credExecCaps (c := c.execIds st)
      ⟨h.permitted, h.effective, h.ambient, h.bounding⟩ _ _

/-- **A dropped capability never comes back**: what is in none of the four sets is in none of
them after any sequence of calls. -/
theorem dropped_stays_dropped {calls : List CredCall} (h : c.Lacks cap)
    (hrun : Run CredStep c calls c') : c'.Lacks cap :=
  hrun.invariant (I := (Lacks · cap)) (fun hc hs => hc.step hs) h

/-- Credentials of an ordinary user, without `CAP_SETUID` in any set. -/
def ordinaryUser : Credentials :=
  { kernelCredentials with
    uid := 5, euid := 5, suid := 5, capEffective := 0, capPermitted := 0,
    capBounding := ~~~(1 <<< CAP_SETUID) }

/-- A set-uid root program with every capability in its file capabilities. -/
def setuidRoot : CredCall :=
  .exec { mode := 0x89ED, uid := 0, gid := 0, size := 0 }
    (some { permitted := BitVec.allOnes 64, effective := true })

theorem dropped_stays_dropped_setuid :
    Run CredStep ordinaryUser [setuidRoot] (afterCalls ordinaryUser [setuidRoot]) ∧
      (afterCalls ordinaryUser [setuidRoot]).capPermitted ≠ 0 ∧
      (afterCalls ordinaryUser [setuidRoot]).Lacks CAP_SETUID := by
  have hlacks : ordinaryUser.Lacks CAP_SETUID := ⟨by decide, by decide, by decide, by decide⟩
  have hrun : Run CredStep ordinaryUser [setuidRoot] (afterCalls ordinaryUser [setuidRoot]) :=
    .cons (.inl rfl) .nil
  exact ⟨hrun, by decide, dropped_stays_dropped hlacks hrun⟩

/-! ## Programs that are not marked -/

/-- `cred_exec_secure`, the `AT_SECURE` that a new program finds. -/
def credExecSecure (c : Credentials) : Bool :=
  (c.uid ≠ c.euid ∨ c.gid ≠ c.egid) ∨ c.uid ≠ 0 ∧ ¬Within c.capPermitted c.capAmbient

/-- A call that starts no program for root and none with `AT_SECURE`. -/
def UnmarkedStep (c : Credentials) (call : CredCall) (c' : Credentials) : Prop :=
  CredStep c call c' ∧
    ∀ st file, call = .exec st file → c' ≠ c → c'.uid ≠ 0 ∧ c'.credExecSecure = false

/-- Nothing but `caps` is permitted, and what survives an exec is permitted. -/
structure PermitsOnly (c : Credentials) (caps : CapSet) : Prop where
  permitted : Within c.capPermitted caps
  ambient : Within c.capAmbient c.capPermitted

/-- Nothing becomes ambient. -/
theorem credExecCaps_ambient (privileged : Bool) (file : Option FileCaps) :
    Within (c.credExecCaps privileged file).2.capAmbient c.capAmbient := by
  have hand : ∀ s : CapSet, Within (c.execAmbient privileged file &&& s) c.capAmbient := by
    refine fun s => within_iff.mpr fun i hi => ?_
    unfold execAmbient at hi
    split at hi <;> simp_all
  unfold credExecCaps
  split
  · exact hand _
  rcases file with _ | file
  · exact hand _
  · simp only
    split <;> exact hand _

theorem PermitsOnly.congr (h : c.PermitsOnly caps) (hsame : c.SameCaps c') :
    c'.PermitsOnly caps := by
  obtain ⟨-, hper, hamb, -⟩ := hsame
  exact ⟨hper ▸ h.permitted, hper ▸ hamb ▸ h.ambient⟩

theorem PermitsOnly.step (h : c.PermitsOnly caps) (hs : UnmarkedStep c call c') :
    c'.PermitsOnly caps := by
  obtain ⟨rfl | ⟨-, rfl⟩, hex⟩ := hs
  case inr => exact h
  have hrule {r} := settle_rule (P := (PermitsOnly · caps)) (r := r) h
  cases call with
  | setcaps =>
    refine hrule fun c' hcl => ?_
    obtain ⟨hper, -, -, hamb, rfl⟩ := credSetcaps_ok hcl
    exact ⟨hper.trans h.permitted, hamb⟩
  | setresuid =>
    refine hrule fun c' hcl => ?_
    obtain ⟨-, rfl⟩ := credSetresuid_ok hcl
    constructor <;> simp only [fixupCaps] <;> split
    exacts [zero _, h.permitted, refl _, h.ambient]
  | setresgid => exact hrule fun c' hcl => h.congr (credSetresgid_ok hcl)
  | setgroups => exact hrule fun c' hcl => h.congr (setgroups_ok hcl)
  | exec st file =>
    by_cases hsame : (CredCall.run c (.exec st file)).2 = c
    · rwa [hsame]
    obtain ⟨huid, hsecure⟩ := hex st file rfl hsame
    simp only [credExecSecure, decide_eq_false_iff_not, not_or, not_and, not_not] at hsecure
    have hamb : Within (CredCall.run c (.exec st file)).2.capAmbient c.capAmbient :=
      credExecCaps_ambient _ _
    -- what is permitted is ambient, and that was permitted before
    exact ⟨((hsecure.2 huid).trans hamb).trans (h.ambient.trans h.permitted),
      (credExecCaps_wellFormed _ _).ambient⟩

/-- **Capabilities come with `AT_SECURE`.** Through any calls that start programs only for a real
user other than root, and none of them marked, no capability becomes permitted. -/
theorem unmarked_programs_permit_nothing {calls : List CredCall} (h : c.PermitsOnly caps)
    (hrun : Run UnmarkedStep c calls c') : c'.PermitsOnly caps :=
  hrun.invariant (I := (PermitsOnly · caps)) (fun h hs => h.step hs) h

/-- A user with an ambient capability runs a program of root's, and does not become root. -/
theorem unmarked_programs_permit_nothing_plain : ∃ c c' : Credentials, Run UnmarkedStep c
      [.exec { mode := 0x81ED, uid := 0, gid := 0, size := 0 } none, .setresuid 0 0 0] c' ∧
    c'.capEffective = 2 ∧ c'.PermitsOnly 2 :=
  ⟨{ ordinaryUser with capPermitted := 2, capAmbient := 2, capBounding := 3 }, Run.exists_and
    ⟨_, .cons ⟨.inl rfl, fun _ _ _ _ => by decide⟩ (.cons ⟨.inl rfl, nofun⟩ .nil), by decide⟩
    fun c' hrun _ => unmarked_programs_permit_nothing ⟨by decide, by decide⟩ hrun⟩

end Credentials

end Vex.Proc
