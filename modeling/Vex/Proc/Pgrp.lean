import Mathlib.Tactic.Common
import Vex.Errno

/-! Process groups and sessions (`pgrp.c`), every call under the lock of the groups. Objects are at
addresses that the allocator hands out. An access to a freed one, or a walk off the end of a list,
leaves a call without a result, so that a call that has one has met neither. The calls are made of a
few small operations on the table, the lists of members and the counts. -/

namespace Vex.Proc.Pgrp

open Function

abbrev PROCESS_GROUP_BUCKETS : Nat := 64

def pgidBucket (pgid : Nat) : Nat := pgid % PROCESS_GROUP_BUCKETS

/-- The unfreed groups and sessions, the fields of `process_group_t` and `session_t` by address, and
the table. A chain through `hash_next` or `group_next` is a list. -/
structure Heap where
  groups : List Nat
  pgid : Nat → Nat
  refcount : Nat → Nat
  numMembers : Nat → Nat
  session : Nat → Nat
  members : Nat → List Nat
  sessions : List Nat
  sid : Nat → Nat
  sessionRefcount : Nat → Nat
  table : Nat → List Nat

namespace Heap

/-- `session_create`, at an address of the allocator. -/
def sessionCreate (h : Heap) (sid session : Nat) : Heap :=
  { h with
    sessions := session :: h.sessions
    sid := update h.sid session sid
    sessionRefcount := update h.sessionRefcount session 1 }

def sessionIncref (h : Heap) (session : Nat) : Option Heap :=
  if session ∈ h.sessions then
    some { h with
      sessionRefcount :=
        update h.sessionRefcount session (h.sessionRefcount session + 1) }
  else none

def sessionDecref (h : Heap) (session : Nat) : Option Heap :=
  if session ∈ h.sessions then
    if h.sessionRefcount session = 1 then
      some { h with sessions := h.sessions.erase session }
    else
      some { h with
        sessionRefcount :=
          update h.sessionRefcount session (h.sessionRefcount session - 1) }
  else none

/-- The new group of `group_create_locked`, filled in and put in the table. -/
def putGroup (h : Heap) (pgid session group : Nat) : Heap :=
  { h with
    groups := group :: h.groups
    pgid := update h.pgid group pgid
    refcount := update h.refcount group 1
    numMembers := update h.numMembers group 0
    session := update h.session group session
    members := update h.members group []
    table := update h.table (pgidBucket pgid) (group :: h.table (pgidBucket pgid)) }

/-- `group_create_locked`, at an address of the allocator. -/
def groupCreateLocked (h : Heap) (pgid session group : Nat) : Option Heap :=
  (h.sessionIncref session).map fun h => h.putGroup pgid session group

/-- The walk of `find_in_table` along a chain. -/
def findInChain (h : Heap) (pgid : Nat) : List Nat → Option (Option Nat)
  | [] => some none
  | group :: rest =>
    if group ∈ h.groups then
      if h.pgid group = pgid then some (some group) else h.findInChain pgid rest
    else none

def findInTable (h : Heap) (pgid : Nat) : Option (Option Nat) :=
  h.findInChain pgid (h.table (pgidBucket pgid))

def unhashLocked (h : Heap) (group : Nat) : Option Heap :=
  if group ∈ h.groups ∧ group ∈ h.table (pgidBucket (h.pgid group)) then
    some { h with
      table := update h.table (pgidBucket (h.pgid group))
        ((h.table (pgidBucket (h.pgid group))).erase group) }
  else none

/-- What `join_locked` does to the group. -/
def addMember (h : Heap) (process group : Nat) : Option Heap :=
  if group ∈ h.groups then
    some { h with
      members := update h.members group (process :: h.members group)
      numMembers := update h.numMembers group (h.numMembers group + 1) }
  else none

/-- What `leave_locked` does to the group. -/
def dropMember (h : Heap) (process group : Nat) : Option Heap :=
  if group ∈ h.groups ∧ process ∈ h.members group then
    if h.numMembers group - 1 = 0 then
      unhashLocked { h with
        members := update h.members group ((h.members group).erase process)
        numMembers := update h.numMembers group (h.numMembers group - 1) } group
    else
      some { h with
        members := update h.members group ((h.members group).erase process)
        numMembers := update h.numMembers group (h.numMembers group - 1) }
  else none

def groupIncref (h : Heap) (group : Nat) : Option Heap :=
  if group ∈ h.groups then
    some { h with refcount := update h.refcount group (h.refcount group + 1) }
  else none

/-- `slab_free` of a group. -/
def freeGroup (h : Heap) (group : Nat) : Heap := { h with groups := h.groups.erase group }

def groupDecref (h : Heap) (group : Nat) : Option Heap :=
  if group ∈ h.groups then
    if h.refcount group = 1 then
      (h.sessionDecref (h.session group)).map fun h => h.freeGroup group
    else
      some { h with refcount := update h.refcount group (h.refcount group - 1) }
  else none

end Heap

structure State where
  heap : Heap
  /-- `process->group`. -/
  group : Nat → Option Nat
  /-- The process ids given out so far. -/
  used : Nat → Bool
  /-- How often a group was found by its id and not released since. -/
  holders : Nat → Nat

namespace State

/-- A step that only touches groups and sessions. -/
def lift (s : State) (f : Heap → Option Heap) : Option State :=
  (f s.heap).map fun h => { s with heap := h }

def joinLocked (s : State) (process group : Nat) : Option State :=
  (s.heap.addMember process group).map fun h =>
    { s with heap := h, group := update s.group process (some group) }

def leaveLocked (s : State) (process : Nat) : Option (Nat × State) :=
  (s.group process).bind fun group =>
    (s.heap.dropMember process group).map fun h => (group, { s with heap := h })

def moveLocked (s : State) (process group : Nat) : Option State :=
  (s.leaveLocked process).bind fun (old, s) =>
    (s.lift (·.groupIncref group)).bind fun s =>
      (s.joinLocked process group).bind fun s => s.lift (·.groupDecref old)

/-- A new session with a new group in it, as `process_group_attach` and `process_group_new_session`
both make one. Either allocation may fail. -/
def createSession (s : State) (pid : Nat) (session group : Option Nat) :
    Option (Option Nat × State) :=
  match session with
  | none => some (none, s)
  | some session =>
    match group with
    | none =>
      (State.lift { s with heap := s.heap.sessionCreate pid session } (·.sessionDecref session)).map
        fun s => (none, s)
    | some group =>
      ((State.lift { s with heap := s.heap.sessionCreate pid session }
        (·.groupCreateLocked pid session group)).bind fun s =>
          s.lift (·.sessionDecref session)).map fun s => (some group, s)

/-- `check_movable_locked`; `own` stands for `process == caller`. -/
def checkMovableLocked (s : State) (own : Bool) (process session : Nat) (didExec : Bool) :
    Except Errno Unit :=
  match s.group process with
  | none => .error .ESRCH
  | some group =>
    if s.heap.session group ≠ session then .error .EPERM
    else if ¬ own ∧ didExec then .error .EACCES
    else if process = s.heap.sid session then .error .EPERM
    else .ok ()

def destinationLocked (s : State) (process pgid session : Nat) (group : Option Nat) :
    Option (Except Errno Nat × State) :=
  (s.heap.findInTable pgid).bind fun
    | some found =>
      if s.heap.session found ≠ session then some (.error .EPERM, s)
      else (s.lift (·.groupIncref found)).map fun s => (.ok found, s)
    | none =>
      if pgid ≠ process then some (.error .EPERM, s)
      else match group with
        | none => some (.error .ENOMEM, s)
        | some group =>
          (s.lift (·.groupCreateLocked pgid session group)).map fun s => (.ok group, s)

/-- `process_group_attach`. A process id counts as given out once its process is attached. -/
def processGroupAttach (s : State) (process : Nat) (parent session group : Option Nat) :
    Option (Except Errno Nat × State) :=
  match parent with
  | some parent =>
    (s.group parent).bind fun group =>
      (s.lift (·.groupIncref group)).bind fun s => (s.joinLocked process group).map fun s =>
        (.ok 0, { s with used := update s.used process true })
  | none =>
    (s.createSession process session group).bind fun
      | (none, s) => some (.error .ENOMEM, s)
      | (some group, s) => (s.joinLocked process group).map fun s =>
        (.ok 0, { s with used := update s.used process true })

def processGroupDetach (s : State) (process : Nat) : Option (Except Errno Nat × State) :=
  match s.group process with
  | none => some (.ok 0, s)
  | some _ =>
    (s.leaveLocked process).bind fun (group, s) =>
      (State.lift { s with group := update s.group process none }
        (·.groupDecref group)).map fun s => (.ok 0, s)

def processGroupNewSession (s : State) (process : Nat) (session group : Option Nat) :
    Option (Except Errno Nat × State) :=
  (s.heap.findInTable process).bind fun
    | some _ => some (.error .EPERM, s)
    | none =>
      (s.createSession process session group).bind fun
        | (none, s) => some (.error .ENOMEM, s)
        | (some group, s) => (s.moveLocked process group).bind fun s =>
          (s.lift (·.groupDecref group)).map fun s => (.ok process, s)

/-- The end of `process_group_move`: the destination is found or made and held. -/
def moveTo (s : State) (process group : Nat) : Option State :=
  (if s.group process ≠ some group then s.moveLocked process group else some s).bind fun s =>
    s.lift (·.groupDecref group)

/-- `process_group_move`; `child` stands for `process->ppid == caller->pid`. -/
def processGroupMove (s : State) (caller process pgid : Nat) (child didExec : Bool)
    (group : Option Nat) : Option (Except Errno Nat × State) :=
  if process ≠ caller ∧ ¬ child then some (.error .ESRCH, s)
  else (s.group caller).bind fun own =>
    match s.checkMovableLocked (process = caller) process (s.heap.session own) didExec with
    | .error e => some (.error e, s)
    | .ok () =>
      (s.destinationLocked process pgid (s.heap.session own) group).bind fun
        | (.error e, s) => some (.error e, s)
        | (.ok group, s) => (s.moveTo process group).map fun s => (.ok 0, s)

def processGroupFind (s : State) (pgid : Nat) : Option (Except Errno Nat × State) :=
  (s.heap.findInTable pgid).bind fun
    | none => some (.error .ESRCH, s)
    | some group => (s.lift (·.groupIncref group)).map fun s =>
      (.ok group, { s with holders := update s.holders group (s.holders group + 1) })

/-- `process_group_decref` of a found group. -/
def processGroupDecref (s : State) (group : Nat) : Option (Except Errno Nat × State) :=
  (s.lift (·.groupDecref group)).map fun s =>
    (.ok 0, { s with holders := update s.holders group (s.holders group - 1) })

end State

/-- The calls, each with what it meets outside: the addresses the allocator gives, none when it
fails, and what is read of the process. -/
inductive Call
  | attach (process : Nat) (parent session group : Option Nat)
  | detach (process : Nat)
  | move (caller process pgid : Nat) (child didExec : Bool) (group : Option Nat)
  | newSession (process : Nat) (session group : Option Nat)
  | find (pgid : Nat)
  | decref (group : Nat)

namespace State

/-- An allocator's answer is not an object in use. -/
def Fresh (inUse : List Nat) : Option Nat → Prop
  | none => True
  | some a => a ∉ inUse

instance (inUse : List Nat) (answer : Option Nat) : Decidable (Fresh inUse answer) :=
  match answer with
  | none => isTrue trivial
  | some a => inferInstanceAs (Decidable (a ∉ inUse))

/-- The calls that can be made: a new process has a new id and its parent is attached, callers are
attached, and only a found group is released. -/
def Allowed (s : State) : Call → Prop
  | .attach process parent session group =>
    s.used process = false ∧ (∀ q ∈ parent, (s.group q).isSome) ∧
      Fresh s.heap.sessions session ∧ Fresh s.heap.groups group
  | .detach _ => True
  | .move caller _ _ _ _ group => (s.group caller).isSome ∧ Fresh s.heap.groups group
  | .newSession process session group =>
    (s.group process).isSome ∧ Fresh s.heap.sessions session ∧ Fresh s.heap.groups group
  | .find _ => True
  | .decref group => 0 < s.holders group

instance (s : State) (c : Call) : Decidable (s.Allowed c) :=
  match c with
  | .attach .. => inferInstanceAs (Decidable (_ ∧ _))
  | .detach _ => isTrue trivial
  | .move .. => inferInstanceAs (Decidable (_ ∧ _))
  | .newSession .. => inferInstanceAs (Decidable (_ ∧ _))
  | .find _ => isTrue trivial
  | .decref _ => inferInstanceAs (Decidable (_ < _))

def call (s : State) : Call → Option (Except Errno Nat × State)
  | .attach process parent session group => s.processGroupAttach process parent session group
  | .detach process => s.processGroupDetach process
  | .move caller process pgid child didExec group =>
    s.processGroupMove caller process pgid child didExec group
  | .newSession process session group => s.processGroupNewSession process session group
  | .find pgid => s.processGroupFind pgid
  | .decref group => s.processGroupDecref group

def next (s : State) (c : Call) : Option (Except Errno Nat × State) :=
  if s.Allowed c then s.call c else none

/-- No process yet. -/
def init : State :=
  { heap :=
      { groups := [], pgid := fun _ => 0, refcount := fun _ => 0, numMembers := fun _ => 0
        session := fun _ => 0, members := fun _ => [], sessions := [], sid := fun _ => 0
        sessionRefcount := fun _ => 0, table := fun _ => [] }
    group := fun _ => none
    used := fun _ => false
    holders := fun _ => 0 }

end State

end Vex.Proc.Pgrp
