import Vex.Errno
import Vex.Lib.Run
import Vex.Proc.Event

/-! Exits and `waitpid` (`process.c`, `sys_process.c`). The zombie flag of a child, its parent's
number, the list of children and the event of the parent are written by different threads under
different locks, so every access to one of them that another thread can see is a step of its own.
A lock held over several steps is part of the state. -/

namespace Vex.Proc.Wait

open Lib Function

variable {P T G : Type}

/-- Who holds the lock of a process: a thread in `wait_child`, or the exit of another process (or of
this one) in `reparent_children`. -/
inductive Holder (P T : Type)
  | thread (t : T)
  | exit (p : P)
  deriving DecidableEq, Repr

/-- Which children `wait_child` is to wait for: any, a pid or the members of a group. -/
inductive Selector (P G : Type)
  | any
  | pid (p : P)
  | group (g : G)
  deriving DecidableEq, Repr

/-- Where the exit of a process is, from `process_thread_reaped` of its last thread on. -/
inductive ExitPc (P : Type)
  | unborn
  | running
  /-- The last thread is off the list. -/
  | last
  /-- The zombie flag is set. -/
  | dead
  /-- `notify_parent` has the parent, if `process_locate` found one. -/
  | notifying (parent : Option P)
  | notified
  /-- In the loop of `reparent_children`, under both locks. `note` if a zombie was seen; the flags
  of `child`, whose `ppid` is stored, are still to be read. -/
  | adopting (adopter child : Option P) (todo : List P) (note : Bool)
  /-- The locks are released. -/
  | adopted (adopter : Option P) (note : Bool)
  | gone
  deriving DecidableEq, Repr

/-- Where a thread is with respect to `wait_child`. -/
inductive WaitPc (P G : Type)
  /-- Outside, with the result of the last call. -/
  | out (result : Option (Except Errno P))
  | starting (sel : Selector P G)
  /-- In the loop over the children, under the caller's lock. -/
  | scanning (sel : Selector P G) (todo : List P) (hasMatch : Bool)
  /-- On the list of listeners, or just taken off it. -/
  | asleep (sel : Selector P G)
  /-- In `collect_child`, before `process_destroy` takes the child out of the table. -/
  | collecting (child : P)
  /-- In `process_destroy`, before the child is taken off the list of the parent found. The status
  was copied out, or could not be. -/
  | unlinking (child : P) (parent : Option P) (copied : Bool)
  deriving DecidableEq, Repr

/-- The child that a call has claimed. -/
@[simp] def WaitPc.target : WaitPc P G → Option P
  | collecting child | unlinking child _ _ => some child
  | _ => none

/-- What does not change: the pid of init, the process of a thread and the group of a process. -/
structure System (P T G : Type) where
  init : P
  process : T → P
  group : P → G

structure World (P T G : Type) where
  ppid : P → Option P
  children : P → List P
  threads : P → List T
  zombie : P → Bool
  collected : P → Bool
  /-- In `proctable`. -/
  listed : P → Bool
  lock : P → Option (Holder P T)
  childExited : P → Event T
  exits : P → ExitPc P
  waits : T → WaitPc P G
  /-- What the calls of `wait_child` that claimed the process and are over have returned. -/
  results : P → List (Except Errno P)

inductive Act (P T G : Type)
  /-- A thread of `p` forks the child `c` with its first thread `t`. -/
  | fork (p c : P) (t : T)
  | spawn (t : T)
  /-- `process_thread_reaped`. -/
  | reap (t : T)
  /-- The next step of the exit of `p`. -/
  | exit (p : P)
  | waitpid (t : T) (sel : Selector P G)
  /-- The next step of `wait_child` in `t`; `ok` if there is memory, or if the status can be copied
  out. -/
  | wait (t : T) (ok : Bool)
  /-- A signal ends the sleep of `t`. -/
  | interrupt (t : T)
  deriving DecidableEq, Repr

variable [DecidableEq P] [DecidableEq T] [DecidableEq G]

def waitMatches (sys : System P T G) (child : P) : Selector P G → Bool
  | .any => true
  | .pid p => child = p
  | .group g => sys.group child = g

/-- What `collect_child` returns: a status that cannot be copied out is lost. -/
def collectResult (child : P) (copied : Bool) : Except Errno P :=
  if copied then .ok child else .error .EFAULT

namespace World

variable (sys : System P T G) (s : World P T G)

def processLocate (p : Option P) : Option P := p.filter s.listed

/-- The process that takes the children of `p`. -/
def adopter (p : P) : Option P := (s.processLocate (some sys.init)).filter (· ≠ p)

/-- The locks `ps` are taken or released. -/
def setLocks (ps : List P) (h : Option (Holder P T)) : World P T G :=
  { s with lock := fun p => if p ∈ ps then h else s.lock p }

def setLock (p : P) (h : Option (Holder P T)) : World P T G := s.setLocks [p] h

def setExit (p : P) (pc : ExitPc P) : World P T G :=
  { s with exits := update s.exits p pc }

def setWait (t : T) (pc : WaitPc P G) : World P T G :=
  { s with waits := update s.waits t pc }

def setPpid (c : P) (p : Option P) : World P T G :=
  { s with ppid := update s.ppid c p }

def setChildren (p : P) (cs : List P) : World P T G :=
  { s with children := update s.children p cs }

def setThreads (p : P) (ts : List T) : World P T G :=
  { s with threads := update s.threads p ts }

def setZombie (p : P) : World P T G :=
  { s with zombie := update s.zombie p true }

def setListed (p : P) (b : Bool) : World P T G :=
  { s with listed := update s.listed p b }

def setEvent (p : P) (e : Event T) : World P T G :=
  { s with childExited := update s.childExited p e }

/-- `event_trigger` of `child_exited` of `p`, without linger. -/
def trigger (p : P) : World P T G := s.setEvent p ((s.childExited p).trigger 0)

/-- `process_claim` found the zombie flag and set the collected flag. -/
def claim (t : T) (c : P) : World P T G :=
  { s.setWait t (.collecting c) with collected := update s.collected c true }

/-- `collect_child` returns in `t`. -/
def collect (t : T) (c : P) (copied : Bool) : World P T G :=
  { s.setWait t (.out (some (collectResult c copied))) with
    results := update s.results c (s.results c ++ [collectResult c copied]) }

/-- The locks of `reparent_children`. -/
def locks (p : P) (adopter : Option P) : List P := p :: adopter.toList

/-- The children of `p` go to the front of the adopter's. -/
def splice (p : P) : Option P → World P T G
  | none => s.setChildren p []
  | some i => (s.setChildren i (s.children p ++ s.children i)).setChildren p []

/-- The rest of `process_thread_reaped` for the last thread, with `notify_parent` and
`reparent_children`. -/
def exit (p : P) : Option (World P T G) :=
  match s.exits p with
  | .unborn | .running | .gone => none
  | .last => some ((s.setExit p .dead).setZombie p)
  | .dead => some (s.setExit p (.notifying (s.processLocate (s.ppid p))))
  | .notifying none => some (s.setExit p .notified)
  | .notifying (some q) =>
    if s.lock q = none then some ((s.trigger q).setExit p .notified) else none
  | .notified =>
    let adopter := s.adopter sys p
    if ∀ q ∈ locks p adopter, s.lock q = none then
      some ((s.setLocks (locks p adopter) (some (.exit p))).setExit p
        (.adopting adopter none (s.children p) false))
    else none
  | .adopting adopter (some c) todo note =>
    some (s.setExit p (.adopting adopter none todo (note || s.zombie c)))
  | .adopting adopter none (c :: todo) note =>
    -- once there is a note the flags are not read
    some ((s.setPpid c adopter).setExit p
      (.adopting adopter (if note then none else some c) todo note))
  | .adopting adopter none [] note =>
    some (((s.setExit p (.adopted adopter note)).splice p adopter).setLocks (locks p adopter) none)
  | .adopted (some i) true => some ((s.trigger i).setExit p .gone)
  | .adopted _ _ => some (s.setExit p .gone)

def wait (t : T) (ok : Bool) : Option (World P T G) :=
  let caller := sys.process t
  match s.waits t with
  | .out _ => none
  | .starting sel =>
    if s.lock caller = none then
      some ((s.setLock caller (some (.thread t))).setWait t
        (.scanning sel (s.children caller) false))
    else none
  | .scanning sel (c :: todo) hasMatch =>
    -- another waiter has it, or it is not waited for
    if s.collected c ∨ ¬waitMatches sys c sel then
      some (s.setWait t (.scanning sel todo hasMatch))
    else if s.zombie c then
      some ((s.claim t c).setLock caller none)
    else some (s.setWait t (.scanning sel todo true))
  | .scanning sel [] true =>
    match (s.childExited caller).await with
    | some e => some (((s.setEvent caller e).setWait t (.starting sel)).setLock caller none)
    | none =>
      if ok then
        some (((s.setEvent caller ((s.childExited caller).listen t)).setWait t
          (.asleep sel)).setLock caller none)
      else some ((s.setWait t (.out (some (.error .ENOMEM)))).setLock caller none)
  | .scanning _ [] false =>
    some ((s.setWait t (.out (some (.error .ECHILD)))).setLock caller none)
  | .asleep sel =>
    if t ∈ (s.childExited caller).listeners then none else some (s.setWait t (.starting sel))
  | .collecting c =>
    let s' := s.setListed c false
    some (s'.setWait t (.unlinking c (s'.processLocate (s.ppid c)) ok))
  | .unlinking c none copied => some (s.collect t c copied)
  | .unlinking c (some q) copied =>
    if s.lock q = none then
      some ((s.setChildren q ((s.children q).erase c)).collect t c copied)
    else none

/-- The thread is no listener any more and `wait_child` returns. -/
def interrupt (t : T) : Option (World P T G) :=
  let caller := sys.process t
  match s.waits t with
  | .asleep _ =>
    if t ∈ (s.childExited caller).listeners then
      some ((s.setWait t (.out (some (.error .ERESTART)))).setEvent caller
        ((s.childExited caller).leave t))
    else none
  | _ => none

/-- `process_create` under the parent's lock, and the first thread of the child. -/
def fork (p c : P) (t : T) : Option (World P T G) :=
  if s.threads p ≠ [] ∧ s.exits c = .unborn ∧ s.lock p = none ∧ sys.process t = c then
    some (((((s.setListed c true).setPpid c (some p)).setExit c .running).setThreads c
      [t]).setChildren p (c :: s.children p))
  else none

def spawn (t : T) : Option (World P T G) :=
  let p := sys.process t
  if s.threads p ≠ [] ∧ t ∉ s.threads p then some (s.setThreads p (t :: s.threads p)) else none

/-- `process_thread_reaped` for a thread that is in no call any more. -/
def reap (t : T) : Option (World P T G) :=
  let p := sys.process t
  match s.waits t with
  | .out _ =>
    if t ∈ s.threads p then
      let ts := s.threads p |>.filter (· ≠ t)
      if ts = [] then some ((s.setThreads p ts).setExit p .last) else some (s.setThreads p ts)
    else none
  | _ => none

def waitpid (t : T) (sel : Selector P G) : Option (World P T G) :=
  match s.waits t with
  | .out _ => if t ∈ s.threads (sys.process t) then some (s.setWait t (.starting sel)) else none
  | _ => none

def step : Act P T G → Option (World P T G)
  | .fork p c t => s.fork sys p c t
  | .spawn t => s.spawn sys t
  | .reap t => s.reap sys t
  | .exit p => s.exit sys p
  | .waitpid t sel => s.waitpid sys t sel
  | .wait t ok => s.wait sys t ok
  | .interrupt t => s.interrupt sys t

/-- Only init runs, with the thread `t`. -/
def start (t : T) : World P T G where
  ppid := fun _ => none
  children := fun _ => []
  threads := update (fun _ => []) sys.init [t]
  zombie := fun _ => false
  collected := fun _ => false
  listed := update (fun _ => false) sys.init true
  lock := fun _ => none
  childExited := fun _ => .init
  exits := update (fun _ => .unborn) sys.init .running
  waits := fun _ => .out none
  results := fun _ => []

end World

end Vex.Proc.Wait
