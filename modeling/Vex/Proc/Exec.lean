import Vex.Proc.Cred

/-! `execve` beside the other threads of its process (`exec_image` of `sys_process.c`,
`process_dethread` of `process.c`). The new credentials are computed and installed under
`credentials_lock`, as every call that sets credentials runs under it; between the two the lock is
free, since a thread that is to leave may be waiting for it. Each stretch under a lock is one
step. -/

namespace Vex.Proc

open Lib Fs

/-- How far the thread in `exec_image` has got. -/
inductive ExecState
  | loading
  /-- `exec_cred` and `load_binary` succeeded, and `credentials_lock` is free again. -/
  | loaded (newCred : Credentials)
  /-- In `process_dethread`, once the other threads have been told to leave. -/
  | dethreading (newCred : Credentials)
  | alone (newCred : Credentials)
  | done
  | failed (e : Errno)
  deriving DecidableEq, Repr

/-- The new credentials are computed and nobody has been told to leave yet. -/
def ExecState.inGap : ExecState → Bool
  | loaded _ => true
  | _ => false

variable {T : Type}

/-- The part of `process_t` that an exec and the calls beside it share. -/
structure Process (T : Type) where
  credentials : Credentials
  threads : List T
  /-- `THREAD_WORK_EXIT` in a thread's `pending_work`. -/
  workExit : T → Bool
  /-- `PROCESS_EXITING`. -/
  exiting : Bool
  exec : ExecState

/-- The calls a thread makes to set the credentials of its process. -/
def CredCall.sets : CredCall → Bool
  | exec _ _ => false
  | _ => true

inductive ExecStep (T : Type)
  /-- A thread's whole `setresuid`, `setresgid`, `setgroups` or `capset`. -/
  | set (t : T) (call : CredCall)
  /-- `exec_cred` and then `load_binary`, which answers `load`. -/
  | load (load : Except Errno Unit)
  | dethread
  /-- A thread that was told to leave is reaped. -/
  | leave (t : T)
  /-- The loop of `process_dethread` finds no other thread. -/
  | alone
  | install
  /-- `begin_exit`, from any thread or by a signal. -/
  | exit

namespace Process

/-- One step of a process whose thread `thread` is in `exec_image`, for a file with the attributes
`st` and the capabilities `file`. -/
def step [DecidableEq T] (thread : T) (st : Stat) (file : Option FileCaps) (p : Process T) :
    ExecStep T → Option (Process T)
  | .set t call =>
    if t ∈ p.threads ∧ t ≠ thread ∧ call.sets then
      some { p with credentials := (call.run p.credentials).2 }
    else none
  | .load load =>
    if p.exec = .loading then
      match p.credentials.execCred st file, load with
      | (.ok (), newCred), .ok () => some { p with exec := .loaded newCred }
      | (.ok (), _), .error e => some { p with exec := .failed e }
      | (.error e, _), _ => some { p with exec := .failed e }
    else none
  | .dethread =>
    match p.exec with
    | .loaded newCred =>
      if p.exiting then some { p with exec := .failed .EINTR }
      else some { p with
        workExit := fun t => (t ∈ p.threads ∧ t ≠ thread) ∨ p.workExit t
        exec := .dethreading newCred }
    | _ => none
  | .leave t =>
    if t ∈ p.threads ∧ t ≠ thread ∧ p.workExit t then some { p with threads := p.threads.erase t }
    else none
  | .alone =>
    match p.exec with
    | .dethreading newCred =>
      if p.threads.length > 1 then none
      else if p.exiting then some { p with exec := .failed .EINTR }
      else some { p with exec := .alone newCred }
    | _ => none
  | .install =>
    match p.exec with
    | .alone newCred => some { p with credentials := newCred, exec := .done }
    | _ => none
  | .exit =>
    if p.exiting then some p
    else some { p with exiting := true, workExit := fun t => t ∈ p.threads ∨ p.workExit t }

/-- A call that sets credentials succeeds before its thread is told to leave, and not in the gap
between an exec that has computed its credentials and the telling. -/
def Timely (p : Process T) : ExecStep T → Prop
  | .set t call => (call.run p.credentials).1 = .ok () →
      p.workExit t = false ∧ p.exec.inGap = false
  | _ => True

/-- The calls of a run that set credentials, in the order they took the lock. -/
def setCalls (steps : List (ExecStep T)) : List CredCall :=
  steps.filterMap fun
    | .set _ call => some call
    | _ => none

/-! ## The credentials an exec installs -/

/-- What a step makes of the credentials if an exec is left out of account. -/
def follow (c : Credentials) : ExecStep T → Credentials
  | .set _ call => (call.run c).2
  | _ => c

theorem foldl_follow (c : Credentials) (steps : List (ExecStep T)) :
    steps.foldl follow c = afterCalls c (setCalls steps) := by
  induction steps generalizing c with
  | nil => rfl
  | cons a steps ih => cases a <;> exact ih _

/-- Nobody but the thread in `exec_image` is left. -/
def Alone (thread : T) (p : Process T) : Prop := ∀ t ∈ p.threads, t = thread

/-- What holds at each stage of an exec, when the calls so far have made the credentials `c`. -/
def AtStage (thread : T) (st : Stat) (file : Option FileCaps) (c : Credentials) (p : Process T) :
    ExecState → Prop
  | .loading | .failed _ => p.credentials = c
  | .loaded newCred => p.credentials = c ∧ c.execCred st file = (.ok (), newCred)
  | .dethreading newCred =>
    p.credentials = c ∧ c.execCred st file = (.ok (), newCred) ∧
      ∀ t ∈ p.threads, t ≠ thread → p.workExit t
  | .alone newCred => c.execCred st file = (.ok (), newCred) ∧ p.Alone thread
  | .done => c.execCred st file = (.ok (), p.credentials) ∧ p.Alone thread

structure Stage (thread : T) (st : Stat) (file : Option FileCaps) (c : Credentials)
    (p : Process T) : Prop where
  here : thread ∈ p.threads
  stage : p.AtStage thread st file c p.exec

variable {thread : T} {st : Stat} {file : Option FileCaps} {c : Credentials} {p p' : Process T}

theorem run_of_error {call : CredCall} (hsets : call.sets) (h : (call.run c).1 ≠ .ok ()) :
    (call.run c).2 = c := by
  have settle_error : ∀ r, (CredCall.run.settle c r).1 ≠ .ok () → (CredCall.run.settle c r).2 = c
    | .ok _, h => absurd rfl h
    | .error _, _ => rfl
  cases call with
  | exec => cases hsets
  | setcaps | setresuid | setresgid | setgroups => exact settle_error _ h

theorem Stage.set (h : p.Stage thread st file c) (ht : t ∈ p.threads) (hoth : t ≠ thread)
    (hsets : call.sets) (hok : p.Timely (.set t call)) :
    Stage thread st file (call.run c).2 { p with credentials := (call.run p.credentials).2 } := by
  refine ⟨h.here, ?_⟩
  have hstg := h.stage
  cases hex : p.exec with
  | loading | failed =>
    rw [hex] at hstg
    exact congrArg (fun c => (call.run c).2) hstg
  | loaded newCred =>
    rw [hex] at hstg
    obtain ⟨rfl, hcred⟩ := hstg
    -- in the gap, so the call failed
    have hfai : (call.run p.credentials).1 ≠ .ok () := fun hr => by
      have := (hok hr).2
      simp [hex, ExecState.inGap] at this
    simp only [run_of_error hsets hfai]
    exact ⟨rfl, hcred⟩
  | dethreading newCred =>
    rw [hex] at hstg
    obtain ⟨rfl, hcred, hto⟩ := hstg
    -- told to leave, so the call failed
    have hfai : (call.run p.credentials).1 ≠ .ok () := fun hr => by
      have := (hok hr).1
      simp [hto t ht hoth] at this
    simp only [run_of_error hsets hfai]
    exact ⟨rfl, hcred, hto⟩
  | alone newCred | done =>
    rw [hex] at hstg
    exact absurd (hstg.2 t ht) hoth

variable [DecidableEq T]

section
variable (h : p.Stage thread st file c)
include h

theorem Stage.load {load : Except Errno Unit} (hs : p.step thread st file (.load load) = some p') :
    p'.Stage thread st file c := by
  obtain ⟨hex, hs⟩ := Option.ite_none_right_eq_some.mp hs
  have hcred : p.credentials = c := by
    have hstg := h.stage
    rwa [hex] at hstg
  split at hs
  case h_1 newCred hnew hs =>
    cases hs
    exact ⟨h.here, hcred, hcred ▸ hnew⟩
  all_goals
    cases hs
    exact ⟨h.here, hcred⟩

theorem Stage.dethread (hs : p.step thread st file .dethread = some p') :
    p'.Stage thread st file c := by
  have hstg := h.stage
  simp only [step] at hs
  split at hs
  case h_2 => cases hs
  rename_i newCred hex
  rw [hex] at hstg
  split at hs
  · cases hs
    exact ⟨h.here, hstg.1⟩
  · cases hs
    exact ⟨h.here, hstg.1, hstg.2, fun t ht hoth => by simp [ht, hoth]⟩

theorem Stage.leave (hoth : t ≠ thread) :
    Stage thread st file c { p with threads := p.threads.erase t } := by
  refine ⟨(List.mem_erase_of_ne hoth.symm).mpr h.here, ?_⟩
  have hstg := h.stage
  cases hex : p.exec with
  | loading | failed | loaded =>
    rw [hex] at hstg
    exact hstg
  | dethreading =>
    rw [hex] at hstg
    exact ⟨hstg.1, hstg.2.1, fun t ht => hstg.2.2 t (List.mem_of_mem_erase ht)⟩
  | alone | done =>
    rw [hex] at hstg
    exact ⟨hstg.1, fun t ht => hstg.2 t (List.mem_of_mem_erase ht)⟩

theorem Stage.alone (hs : p.step thread st file .alone = some p') : p'.Stage thread st file c := by
  have hstg := h.stage
  simp only [step] at hs
  split at hs
  case h_2 => cases hs
  rename_i newCred hex
  rw [hex] at hstg
  obtain ⟨hlen, hs⟩ := Option.ite_none_left_eq_some.mp hs
  split at hs
  · cases hs
    exact ⟨h.here, hstg.1⟩
  cases hs
  refine ⟨h.here, hstg.2.1, fun t ht => ?_⟩
  have hone : p.threads.length = 1 :=
    Nat.le_antisymm (Nat.not_lt.mp hlen) (List.length_pos_of_mem h.here)
  obtain ⟨only, honly⟩ := List.length_eq_one_iff.mp hone
  have hhere := h.here
  rw [honly] at ht hhere
  exact (List.mem_singleton.mp ht).trans (List.mem_singleton.mp hhere).symm

theorem Stage.install (hs : p.step thread st file .install = some p') :
    p'.Stage thread st file c := by
  have hstg := h.stage
  simp only [step] at hs
  split at hs
  case h_2 => cases hs
  case h_1 newCred hex =>
    rw [hex] at hstg
    cases hs
    exact ⟨h.here, hstg⟩

theorem Stage.exit (hs : p.step thread st file .exit = some p') : p'.Stage thread st file c := by
  have hstg := h.stage
  simp only [step] at hs
  split at hs
  · cases hs
    exact h
  cases hs
  refine ⟨h.here, ?_⟩
  cases hex : p.exec with
  | loading | failed | loaded | alone | done =>
    rw [hex] at hstg
    exact hstg
  | dethreading =>
    rw [hex] at hstg
    exact ⟨hstg.1, hstg.2.1, fun t ht hoth => by simp [hstg.2.2 t ht hoth]⟩

theorem Stage.step {a : ExecStep T} (hok : p.Timely a) (hs : p.step thread st file a = some p') :
    p'.Stage thread st file (follow c a) := by
  cases a with
  | set t call =>
    obtain ⟨⟨ht, hoth, hsets⟩, rfl⟩ := of_guard hs
    exact h.set ht hoth hsets hok
  | load => exact h.load hs
  | dethread => exact h.dethread hs
  | leave t =>
    obtain ⟨⟨-, hoth, -⟩, rfl⟩ := of_guard hs
    exact h.leave hoth
  | alone => exact h.alone hs
  | install => exact h.install hs
  | exit => exact h.exit hs

end

/-- **An exec applies to the credentials the process has when it becomes single-threaded**: the
ones it installs are its transformation of the credentials after all calls of the other threads,
if these succeed only before their threads are told to leave, and not in the gap before that. -/
theorem exec_installs_current {steps : List (ExecStep T)} (hother : thread ∈ p.threads)
    (hexec : p.exec = .loading)
    (hrun : Run (Under Timely (Advances (step thread st file))) p steps p')
    (hdone : p'.exec = .done) :
    (afterCalls p.credentials (setCalls steps)).execCred st file = (.ok (), p'.credentials) := by
  have h0 : p.Stage thread st file p.credentials := ⟨hother, by rw [hexec]; rfl⟩
  have h := hrun.history (fun h hs => h.step hs.1 hs.2) h0
  rw [foldl_follow] at h
  have hstage := h.stage
  rw [hdone] at hstage
  exact hstage.1

/-- A process of root's with two threads, the first about to exec. -/
def twoThreads : Process Nat where
  credentials := kernelCredentials
  threads := [0, 1]
  workExit := fun _ => false
  exiting := false
  exec := .loading

/-- A program anybody may run, without set-id bits. -/
def plainFile : Stat where
  mode := 0x81ED
  uid := 0
  gid := 0
  size := 0

instance (p : Process T) (a : ExecStep T) : Decidable (p.Timely a) :=
  match a with
  | .set _ _ => inferInstanceAs (Decidable (_ → _))
  | .load _ | .dethread | .leave _ | .alone | .install | .exit => isTrue trivial

/-- The second thread gives root up before the exec looks at the credentials. -/
def dropThenExec : List (ExecStep Nat) :=
  [.set 1 (.setresuid 5 5 5), .load (.ok ()), .dethread, .leave 1, .alone, .install]

/-- The second thread gives root up when the exec has looked at the credentials. -/
def dropInGap : List (ExecStep Nat) :=
  [.load (.ok ()), .set 1 (.setresuid 5 5 5), .dethread, .leave 1, .alone, .install]

theorem exec_installs_current_dropThenExec :
    ∃ p', Run (Under Timely (Advances (step 0 plainFile none))) twoThreads dropThenExec p' ∧
      p'.credentials.euid = 5 ∧
      (afterCalls kernelCredentials (setCalls dropThenExec)).execCred plainFile none =
        (.ok (), p'.credentials) := by
  have hrun : Run (Under Timely (Advances (step 0 plainFile none))) twoThreads dropThenExec _ :=
    Run.of_foldlM_under rfl
  exact ⟨_, hrun, rfl, exec_installs_current (by decide) rfl hrun rfl⟩

/-- The exec installs root's credentials again, with every capability. -/
theorem exec_undoes_drop :
    ∃ p', Run (Advances (step 0 plainFile none)) twoThreads dropInGap p' ∧ p'.exec = .done ∧
      (afterCalls kernelCredentials (setCalls dropInGap)).euid = 5 ∧
      p'.credentials.euid = 0 ∧ p'.credentials.capEffective = BitVec.allOnes 64 :=
  ⟨_, Run.of_foldlM rfl, rfl, by decide, rfl, rfl⟩

end Process

end Vex.Proc
