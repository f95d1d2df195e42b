import Mathlib.Data.BitVec
import Vex.Errno

/-! Signals (`signal.c`) of one process and its threads, with the joining and leaving of threads
(`sched.c`, `process.c`). A signal for the whole process is pending on the process, and the thread
that is to take it is told by `THREAD_WORK_SIGNAL`. Every stretch under the locks is one step; the
queues of `siginfo_t` beside the pending sets are left out. -/

namespace Vex.Proc.Signal

open Function

abbrev SigSet := BitVec 64

abbrev SIGKILL : Nat := 9
abbrev SIGSTOP : Nat := 18

def sigbit (sig : Nat) : SigSet := BitVec.twoPow 64 (sig - 1)

inductive DefaultAction
  | term | core | ignore | stop | cont
  deriving DecidableEq, Repr

def defaultActions : Nat → DefaultAction
  -- SIGQUIT, SIGILL, SIGTRAP, SIGABRT, SIGBUS, SIGFPE, SIGSEGV, SIGXCPU, SIGXFSZ, SIGSYS
  | 3 | 4 | 5 | 6 | 7 | 8 | 10 | 23 | 24 | 28 => .core
  -- SIGCHLD, SIGURG, SIGWINCH, SIGINFO
  | 16 | 22 | 27 | 29 => .ignore
  -- SIGSTOP, SIGTSTP, SIGTTIN, SIGTTOU
  | 18 | 19 | 20 | 21 => .stop
  -- SIGCONT
  | 17 => .cont
  | _ => .term

def defaultKills (sig : Nat) : Bool :=
  defaultActions sig = .term || defaultActions sig = .core

/-- `sa_handler`. -/
inductive Handler
  | dfl | ign | caught
  deriving DecidableEq, Repr

/-- The parts of `sigaction_t` that are read under the locks. -/
structure Action where
  handler : Handler
  /-- `SA_RESETHAND`. -/
  resetHand : Bool
  deriving DecidableEq, Repr

/-- `SIG_DFL` with no flags is all zeroes. -/
def Action.zero : Action := { handler := .dfl, resetHand := false }

/-- What a `thread_t` has about signals. -/
structure Sigs where
  blocked : SigSet
  pending : SigSet
  /-- `THREAD_WORK_SIGNAL` in `pending_work`. -/
  workSignal : Bool
  /-- `THREAD_WORK_EXIT` in `pending_work`. -/
  workExit : Bool
  deriving DecidableEq, Repr

/-- What a `process_t` has about signals. -/
structure Process (T : Type) where
  threads : List T
  sigs : T → Sigs
  sigPending : SigSet
  actions : Nat → Action
  /-- Its pid is `INIT_PID`. -/
  isInit : Bool
  /-- `PROCESS_EXITING`. -/
  exiting : Bool
  execThread : Option T
  /-- How often `signal_retarget` is still to run for a thread that has left. -/
  owed : Nat

inductive How
  | block | unblock | setmask
  deriving DecidableEq, Repr

namespace Process

variable {T : Type} [DecidableEq T]

def leaving (p : Process T) (t : T) : Bool := (p.sigs t).workExit

def setSigs (p : Process T) (t : T) (r : Sigs) : Process T :=
  { p with sigs := update p.sigs t r }

/-- Signals that the thread, or any thread, is to take and that it does not block. -/
def deliverable (p : Process T) (t : T) : SigSet :=
  ((p.sigs t).pending ||| p.sigPending) &&& ~~~(p.sigs t).blocked

def recalcLocked (p : Process T) (t : T) : Process T :=
  p.setSigs t { p.sigs t with workSignal := p.deliverable t ≠ 0 }

def ignoredLocked (p : Process T) (sig : Nat) : Bool :=
  match (p.actions sig).handler with
  | .ign => true
  | .dfl => p.isInit || !defaultKills sig
  | .caught => false

/-- A thread that could take the signal. -/
def couldTake (p : Process T) (bit : SigSet) (t : T) : Bool :=
  (p.sigs t).blocked &&& bit = 0 && !p.leaving t

/-- `self` is the calling thread, if it is one of the process. -/
def chooseThreadLocked (p : Process T) (self : Option T) (bit : SigSet) : Option T :=
  match self with
  | some self =>
    if self ∈ p.threads ∧ p.couldTake bit self then some self
    else p.threads.find? (p.couldTake bit)
  | none => p.threads.find? (p.couldTake bit)

/-- `begin_exit`: every thread is told to leave. -/
def beginExit (p : Process T) : Process T :=
  if p.exiting then p
  else { p with
    exiting := true
    sigs := fun t => if t ∈ p.threads then { p.sigs t with workExit := true } else p.sigs t }

/-- `THREAD_WORK_SIGNAL` is set for the thread, if there is one. -/
def work (p : Process T) : Option T → Process T
  | none => p
  | some t => p.setSigs t { p.sigs t with workSignal := true }

/-- `queue_signal` for the whole process. -/
def queueProcess (p : Process T) (self : Option T) (sig : Nat) : Process T :=
  if p.sigPending &&& sigbit sig ≠ 0 then p
  else
    let thread := p.chooseThreadLocked self (sigbit sig)
    -- one that nobody could take now stays pending, its action may change
    if thread.isSome ∧ p.ignoredLocked sig then p
    else { p with sigPending := p.sigPending ||| sigbit sig }.work thread

/-- `queue_signal` for one thread. -/
def queueThread (p : Process T) (t : T) (sig : Nat) : Except Errno Unit × Process T :=
  if t ∈ p.threads ∧ ¬p.leaving t then
    let r := p.sigs t
    if r.pending &&& sigbit sig ≠ 0 then (.ok (), p)
    else if r.blocked &&& sigbit sig ≠ 0 then
      (.ok (), p.setSigs t { r with pending := r.pending ||| sigbit sig })
    else if p.ignoredLocked sig then (.ok (), p)
    else (.ok (), p.setSigs t { r with pending := r.pending ||| sigbit sig, workSignal := true })
  else (.error .ESRCH, p)

def signalSend (p : Process T) (self tid : Option T) (sig : Nat) : Except Errno Unit × Process T :=
  if sig = SIGKILL then
    if tid.any fun t => ¬(t ∈ p.threads ∧ ¬p.leaving t) then (.error .ESRCH, p)
    else (.ok (), if p.isInit then p else p.beginExit)
  else
    match tid with
    | none => (.ok (), p.queueProcess self sig)
    | some t => p.queueThread t sig

def signalRetarget (p : Process T) : Process T :=
  { p with
    owed := p.owed - 1
    sigs := fun t =>
      if t ∈ p.threads ∧ ¬p.leaving t ∧ p.sigPending &&& ~~~(p.sigs t).blocked ≠ 0 then
        { p.sigs t with workSignal := true }
      else p.sigs t }

def signalForce (p : Process T) (t : T) (sig : Nat) : Process T :=
  let r := p.sigs t
  let action :=
    if (p.actions sig).handler = .ign ∨ r.blocked &&& sigbit sig ≠ 0 then .zero
    else p.actions sig
  let p := { p with actions := update p.actions sig action }
  if action.handler = .dfl ∧ defaultKills sig then p.beginExit
  else
    (p.setSigs t { r with
      blocked := r.blocked &&& ~~~sigbit sig
      pending := r.pending ||| sigbit sig }).recalcLocked t

/-- The part of `signal_deliver` under the lock: which signal the thread takes, if any. What
follows is a `signal_mask` of the thread, or the end of the process. -/
def signalDeliver (p : Process T) (t : T) : Process T :=
  let r := p.sigs t
  let own := r.pending &&& ~~~r.blocked
  let all := p.sigPending &&& ~~~r.blocked
  if own = 0 ∧ all = 0 then p.recalcLocked t
  else
    let sig := (if own ≠ 0 then own else all).ctz.toNat + 1
    let taken :=
      if own ≠ 0 then p.setSigs t { r with pending := r.pending &&& ~~~sigbit sig }
      else { p with sigPending := p.sigPending &&& ~~~sigbit sig }
    let action := p.actions sig
    let reset :=
      if action.handler = .caught ∧ action.resetHand then
        { taken with actions := update p.actions sig .zero }
      else taken
    reset.recalcLocked t

def signalAction (p : Process T) (sig : Nat) (act : Action) : Process T :=
  let p := { p with actions := update p.actions sig act }
  if p.ignoredLocked sig then
    { p with
      sigPending := p.sigPending &&& ~~~sigbit sig
      sigs := fun t =>
        if t ∈ p.threads then
          { p.sigs t with pending := (p.sigs t).pending &&& ~~~sigbit sig }
        else p.sigs t }
  else p

/-- The mask that `signal_mask` leaves. -/
def newMask (old : SigSet) (how : How) (set : SigSet) : SigSet :=
  let blocked :=
    match how with
    | .block => old ||| set
    | .unblock => old &&& ~~~set
    | .setmask => set
  blocked &&& ~~~(sigbit SIGKILL ||| sigbit SIGSTOP)

def signalMask (p : Process T) (t : T) (how : How) (set : SigSet) : Process T :=
  (p.setSigs t { p.sigs t with blocked := newMask (p.sigs t).blocked how set }).recalcLocked t

/-! ## Threads that join and leave -/

/-- `attach_thread_user` of a new thread with the given mask. -/
def attachThreadUser (p : Process T) (t : T) (blocked : SigSet) : Process T :=
  { p.setSigs t {
      blocked := blocked, pending := 0, workSignal := false,
      workExit := p.exiting || p.execThread.isSome } with
    threads := t :: p.threads }

/-- `process_thread_exit`, up to `signal_retarget`. -/
def processThreadExit (p : Process T) (t : T) : Process T :=
  if p.leaving t then p
  else
    let left := p.setSigs t { p.sigs t with workExit := true }
    if p.threads.all left.leaving then left.beginExit else { left with owed := left.owed + 1 }

/-- `process_dethread`, up to the wait for the other threads. -/
def processDethread (p : Process T) (t : T) : Process T :=
  if p.exiting ∨ p.execThread.isSome then p
  else { p with
    execThread := some t
    sigs := fun u =>
      if u ∈ p.threads ∧ u ≠ t then { p.sigs u with workExit := true } else p.sigs u }

end Process

inductive Act (T : Type)
  | send (self tid : Option T) (sig : Nat)
  | force (t : T) (sig : Nat)
  | mask (t : T) (how : How) (set : SigSet)
  | deliver (t : T)
  | action (sig : Nat) (act : Action)
  | retarget
  /-- `thread_create_sibling` by a thread that has not left. -/
  | sibling (t creator : T)
  /-- The first thread of a process. -/
  | first (t : T)
  /-- `fork` gives the first thread of the child the mask of its creator. -/
  | inherit (t : T) (blocked : SigSet)
  | threadExit (t : T)
  | exit
  | dethread (t : T)
  /-- `process_dethread` finds itself alone. -/
  | alone
  | reaped (t : T)

namespace Process

variable {T : Type} [DecidableEq T]

def step (p : Process T) : Act T → Option (Process T)
  | .send self tid sig => some (p.signalSend self tid sig).2
  | .force t sig => if t ∈ p.threads then some (p.signalForce t sig) else none
  | .mask t how set => if t ∈ p.threads then some (p.signalMask t how set) else none
  | .deliver t => if t ∈ p.threads then some (p.signalDeliver t) else none
  | .action sig act => some (p.signalAction sig act)
  | .retarget => if 0 < p.owed then some p.signalRetarget else none
  | .sibling t creator =>
    -- who has left creates no thread; who was told to leave still may
    if t ∉ p.threads ∧ creator ∈ p.threads ∧
        (p.leaving creator = false ∨ p.exiting ∨ p.execThread.isSome) then
      some (p.attachThreadUser t (p.sigs creator).blocked)
    else none
  | .first t => if p.threads = [] then some (p.attachThreadUser t 0) else none
  | .inherit t blocked =>
    if p.threads = [t] ∧ (p.sigs t).blocked = 0 then
      some (p.setSigs t { p.sigs t with blocked := blocked })
    else none
  | .threadExit t => if t ∈ p.threads then some (p.processThreadExit t) else none
  | .exit => some p.beginExit
  | .dethread t => if t ∈ p.threads then some (p.processDethread t) else none
  | .alone =>
    if p.execThread.isSome ∧ p.threads.length ≤ 1 then
      if p.exiting then some { p with execThread := none }
      else some { p with execThread := none, owed := p.owed + 1 }
    else none
  | .reaped t =>
    if t ∈ p.threads ∧ p.leaving t ∧ p.execThread ≠ some t then
      some { p with threads := p.threads.erase t }
    else none

end Process

end Vex.Proc.Signal
