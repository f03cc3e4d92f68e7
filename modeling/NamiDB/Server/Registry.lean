import Mathlib.Data.List.AList
import NamiDB.Lib.Tasks

/-! The multi-tenant namespace registry of the server: the slots of its session map, the
incarnations they hold, the draining map and the restore reservations, and what each access of a
task to them does. Storage itself is outside: an operation on a writer is recorded when it begins
and its outcome is a choice of the environment. -/
namespace NamiDB.Server

abbrev Task := Nat

/-- The number of an attempt to open a writer. The state an attempt produces keeps it. -/
abbrev Incarnation := Nat

abbrev SlotId := Nat

inductive Operation where
  | commit | flush | install | reopen
  deriving DecidableEq, Repr

inductive Path where
  | httpWrite | httpSchema | adminFlush | adminCompact | bolt | flushLoop | committer
  | worker (cancellable : Bool)
  deriving DecidableEq, Repr

/-- What a task was spawned for; a `request` comes from a client. -/
inductive Job where
  | request
  | writeSection (k : Incarnation)
  | restoreCopy
  | committer (k : Incarnation)
  | flushLoop (k : Incarnation)
  | compactionLoop (k : Incarnation)
  | worker (k : Incarnation) (cancellable : Bool)
  deriving DecidableEq, Repr

/-- `tokio::sync::OnceCell`: the permit is with the task that runs the initialiser. -/
structure OnceCell (α : Type) where
  value : Option α := none
  permit : Option Task := none
  deriving Repr

/-- A slot of the session map. `clones` are the tasks that hold the `Arc` beside the map, `ns` is
the key it was inserted under. -/
structure Slot where
  cell : OnceCell Incarnation := {}
  clones : List Task := []
  ns : String
  deriving Repr

/-- `drained` is no field of the source: it records that a drain got hold of the writer mutex. -/
structure NamespaceState where
  ns : String
  retired : Bool := false
  cancelled : Bool := false
  writer : Option Task := none
  maintenanceTasks : List Task := []
  quiesced : OnceCell Unit := {}
  drained : Bool := false
  workerActive : Bool := false
  pending : Bool := false
  deriving Repr

/-- `joining` are the handles the task took out of a namespace to wait for, `reservation` is the
`RestoreGuard` it owns and `lease` the armed `WorkerLease`. -/
structure TaskState where
  job : Job
  started : Bool := false
  done : Bool := false
  aborted : Bool := false
  joining : List Task := []
  reservation : Option String := none
  lease : Option Incarnation := none
  deriving Repr

inductive Event where
  | opening (k : Incarnation) (ns : String) (restoring : Bool)
  | operation (k : Incarnation) (ns : String) (op : Operation) (path : Path)
  deriving DecidableEq, Repr

structure MaintenanceConfig where
  groupCommit : Bool
  flushes : Bool
  compacts : Bool

/-- `removed` is the initialised slot that the holder of the session lock has taken out of the map
and not yet entered in `draining`. The `k`-th entry of `openings` is the namespace of attempt `k`;
`log` has the newest event first. -/
structure Registry where
  maxNamespaces : Nat
  maintenance : MaintenanceConfig
  sessions : AList (fun _ : String => SlotId)
  sessionsLock : Option Task
  removed : Option SlotId
  slots : SlotId → Slot
  nextSlot : SlotId
  draining : String → Option Incarnation
  restoring : String → Bool
  openings : List String
  states : Incarnation → Option NamespaceState
  tasks : Task → Option TaskState
  nextTask : Task
  log : List Event

def Registry.new (maxNamespaces : Nat) (maintenance : MaintenanceConfig) : Registry where
  maxNamespaces := maxNamespaces
  maintenance := maintenance
  sessions := ∅
  sessionsLock := none
  removed := none
  slots _ := { ns := "" }
  nextSlot := 0
  draining _ := none
  restoring _ := false
  openings := []
  states _ := none
  tasks _ := none
  nextTask := 0
  log := []

inductive Admission where
  | startWorker | queuedFollowUp | coalesced
  deriving DecidableEq, Repr

inductive Request where
  | getSlot (ns : String)
  | peek (ns : String)
  | lockSessions
  | unlockSessions
  | findSlot (ns : String)
  | isRestoring (ns : String)
  | sessionCount
  | atCapacity
  | findIdleOldest
  | removeSlot (ns : String)
  | retire (k : Incarnation)
  | cancel (k : Incarnation)
  | insertDraining (k : Incarnation)
  | newSlot (ns : String)
  | enterSlot (n : SlotId)
  | leaveSlot (n : SlotId)
  | getDraining (ns : String)
  | removeDraining (k : Incarnation)
  | openWriter (ns : String)
  | publish (n : SlotId) (k : Incarnation)
  | isRetired (k : Incarnation)
  | isCancelled (k : Incarnation)
  | lockWriter (k : Incarnation)
  | lockWriterBounded (k : Incarnation)
  | unlockWriter (k : Incarnation)
  | operate (k : Incarnation) (op : Operation) (path : Path)
  | enterQuiesce (k : Incarnation)
  | takeHandles (k : Incarnation)
  | abort (t : Task)
  | join (t : Task)
  | drainWriter (k : Incarnation)
  | setQuiesced (k : Incarnation)
  | spawn (job : Job)
  | spawnCopy
  | admitTrigger (k : Incarnation)
  | nextTriggerOrStop (k : Incarnation)
  | track (k : Incarnation) (t : Task)
  | removeDead (ns : String)
  | hasSlot (ns : String)
  | reserve (ns : String)
  | choose
  | rounds

@[reducible] def Reply : Request → Type
  | .getSlot _ => Option SlotId
  | .peek _ => Option Incarnation
  | .findSlot _ => Option SlotId
  | .isRestoring _ => Bool
  | .sessionCount => Nat
  | .atCapacity => Bool
  | .findIdleOldest => Option String
  | .removeSlot _ => Option Incarnation
  | .newSlot _ => SlotId
  | .enterSlot _ => Option Incarnation
  | .getDraining _ => Option Incarnation
  | .openWriter _ => Incarnation
  | .isRetired _ => Bool
  | .isCancelled _ => Bool
  | .lockWriterBounded _ => Bool
  | .enterQuiesce _ => Bool
  | .takeHandles _ => List Task
  | .spawn _ => Task
  | .spawnCopy => Task
  | .admitTrigger _ => Admission
  | .nextTriggerOrStop _ => Bool
  | .track _ _ => Bool
  | .hasSlot _ => Bool
  | .reserve _ => Bool
  | .choose => Bool
  | .rounds => Nat
  | _ => Unit

/-- The requests at an `await`, where a task may be dropped. -/
def Request.waits : Request → Bool
  | .getSlot _ | .peek _ | .lockSessions | .enterSlot _ | .lockWriter _ | .lockWriterBounded _
  | .enterQuiesce _ | .join _ | .drainWriter _ | .choose | .rounds => true
  | _ => false

namespace Registry

/-- `NamespaceRegistry::at_capacity`. -/
def full (s : Registry) : Bool :=
  s.maxNamespaces != 0&&s.maxNamespaces ≤ s.sessions.entries.length

/-- A slot nobody initialised and only the map holds. -/
def dead (s : Registry) (n : SlotId) : Bool :=
  (s.slots n).cell.value.isNone&&(s.slots n).clones.isEmpty

def setSlot (s : Registry) (n : SlotId) (x : Slot) : Registry :=
  { s with slots := Function.update s.slots n x }

def setState (s : Registry) (k : Incarnation) (x : NamespaceState) : Registry :=
  { s with states := Function.update s.states k (some x) }

def setTask (s : Registry) (t : Task) (x : TaskState) : Registry :=
  { s with tasks := Function.update s.tasks t (some x) }

def cloneSlot (s : Registry) (n : SlotId) (i : Task) : Registry :=
  s.setSlot n { s.slots n with clones := i::(s.slots n).clones }

def addSlot (s : Registry) (ns : String) (i : Task) : Registry :=
  { s with slots := Function.update s.slots s.nextSlot { ns, clones := [i] }
           sessions := s.sessions.insert ns s.nextSlot
           nextSlot := s.nextSlot+1 }

def addTask (s : Registry) (x : TaskState) : Registry :=
  { s with tasks := Function.update s.tasks s.nextTask (some x), nextTask := s.nextTask+1 }

/-- The tasks `spawn_maintenance` starts for incarnation `k`. -/
def maintenanceJobs (s : Registry) (k : Incarnation) : List Job :=
  (if s.maintenance.groupCommit then [.committer k] else []) ++
    (if s.maintenance.flushes then [.flushLoop k] else []) ++
    (if s.maintenance.compacts then [.compactionLoop k] else [])

def spawnAll (s : Registry) : List Job → List Task × Registry
  | [] => ([],s)
  | job::rest =>
    let (handles,s') := (s.addTask { job }).spawnAll rest
    (s.nextTask::handles,s')

/-- The end of `open_namespace`: the state is built, its maintenance tasks are spawned and the slot
is set. There is no await in between, and nobody else sees the state before the slot is set. -/
def publish (s : Registry) (n : SlotId) (k : Incarnation) : Registry :=
  let slot := s.slots n
  let (handles,s') := s.spawnAll (s.maintenanceJobs k)
  { s with
    tasks := s'.tasks
    nextTask := s'.nextTask
    states := Function.update s.states k (some { ns := slot.ns, maintenanceTasks := handles })
    slots := Function.update s.slots n { slot with cell := { value := some k, permit := none } } }

def isDone (s : Registry) (t : Task) : Bool := (s.tasks t).any (·.done)

end Registry

/-- What decides a request the code leaves open: an outcome, a length, or which idle namespace the
clock picks. -/
inductive Choice where
  | only
  | flag (b : Bool)
  | number (n : Nat)
  | victim (v : Option String)

open Registry in
/-- What a request of task `i` answers and does; `none` while it has to wait. -/
def handle (i : Task) (s : Registry) : (o : Request) → Choice → Option (Reply o × Registry)
  | .getSlot ns, _ =>
    if s.sessionsLock.isSome then none
    else match s.sessions.lookup ns with
      | none => some (none,s)
      | some n => some (some n,s.cloneSlot n i)
  | .peek ns, _ =>
    if s.sessionsLock.isSome then none
    else some ((s.sessions.lookup ns).bind fun n => (s.slots n).cell.value,s)
  | .lockSessions, _ =>
    if s.sessionsLock.isSome then none else some ((),{ s with sessionsLock := some i })
  | .unlockSessions, _ => some ((),{ s with sessionsLock := none })
  | .findSlot ns, _ =>
    match s.sessions.lookup ns with
    | none => some (none,s)
    | some n => some (some n,s.cloneSlot n i)
  | .isRestoring ns, _ => some (s.restoring ns,s)
  | .sessionCount, _ => some (s.sessions.entries.length,s)
  | .atCapacity, _ => some (s.full,s)
  | .findIdleOldest, .victim none =>
    if s.sessions.entries.any fun e => s.dead e.2 then none else some (none,s)
  | .findIdleOldest, .victim (some ns) =>
    match s.sessions.lookup ns with
    | none => none
    | some n =>
      if (s.slots n).cell.value.isSome||(s.slots n).clones.isEmpty then some (some ns,s) else none
  | .findIdleOldest, _ => none
  | .removeSlot ns, _ =>
    match s.sessions.lookup ns with
    | none => none
    | some n =>
      let value := (s.slots n).cell.value
      some (value,{ s with sessions := s.sessions.erase ns
                           removed := if value.isSome then some n else s.removed })
  | .retire k, _ => (s.states k).map fun x => ((),s.setState k { x with retired := true })
  | .cancel k, _ => (s.states k).map fun x => ((),s.setState k { x with cancelled := true })
  | .insertDraining k, _ =>
    (s.states k).map fun x =>
      ((),{ s with draining := Function.update s.draining x.ns (some k), removed := none })
  | .newSlot ns, _ => some (s.nextSlot,s.addSlot ns i)
  | .enterSlot n, _ =>
    let slot := s.slots n
    match slot.cell.value, slot.cell.permit with
    | some k, _ => some (some k,s)
    | none, some _ => none
    | none, none => some (none,s.setSlot n { slot with cell := { permit := some i } })
  | .leaveSlot n, _ =>
    let slot := s.slots n
    some ((),s.setSlot n { slot with cell := { slot.cell with permit := none } })
  | .getDraining ns, _ => some (s.draining ns,s)
  | .removeDraining k, _ =>
    (s.states k).map fun x =>
      ((),if s.draining x.ns=some k then
          { s with draining := Function.update s.draining x.ns none } else s)
  | .openWriter ns, _ =>
    let k := s.openings.length
    some (k,{ s with openings := s.openings++[ns]
                     log := .opening k ns (s.restoring ns)::s.log })
  | .publish n k, _ => some ((),s.publish n k)
  | .isRetired k, _ => (s.states k).map fun x => (x.retired,s)
  | .isCancelled k, _ => (s.states k).map fun x => (x.cancelled,s)
  | .lockWriter k, _ =>
    (s.states k).bind fun x =>
      if x.writer.isSome then none else some ((),s.setState k { x with writer := some i })
  | .lockWriterBounded k, .flag false => (s.states k).map fun _ => (false,s)
  | .lockWriterBounded k, _ =>
    (s.states k).bind fun x =>
      if x.writer.isSome then none else some (true,s.setState k { x with writer := some i })
  | .unlockWriter k, _ => (s.states k).map fun x => ((),s.setState k { x with writer := none })
  | .operate k op path, _ =>
    (s.states k).map fun x => ((),{ s with log := .operation k x.ns op path::s.log })
  | .enterQuiesce k, _ =>
    (s.states k).bind fun x =>
      match x.quiesced.value, x.quiesced.permit with
      | some (), _ => some (true,s)
      | none, some _ => none
      | none, none => some (false,s.setState k { x with quiesced := { permit := some i } })
  | .takeHandles k, _ =>
    (s.states k).bind fun x => (s.tasks i).map fun me =>
      (x.maintenanceTasks,(s.setState k { x with maintenanceTasks := [] }).setTask i
        { me with joining := me.joining++x.maintenanceTasks })
  | .abort t, _ => (s.tasks t).map fun x => ((),s.setTask t { x with aborted := true })
  | .join t, _ => if s.isDone t then some ((),s) else none
  | .drainWriter k, _ =>
    (s.states k).bind fun x =>
      if x.writer.isSome then none
      else some ((),s.setState k { x with writer := some i, drained := true })
  | .setQuiesced k, _ =>
    (s.states k).map fun x => ((),s.setState k { x with quiesced := { value := some () } })
  | .spawn job, _ =>
    let lease := match job with
      | .worker k _ => some k
      | _ => none
    some (s.nextTask,s.addTask { job, lease })
  | .spawnCopy, _ =>
    (s.tasks i).map fun me =>
      (s.nextTask,(s.setTask i { me with reservation := none }).addTask
        { job := .restoreCopy, reservation := me.reservation })
  | .admitTrigger k, _ =>
    (s.states k).map fun x =>
      if !x.workerActive then (.startWorker,s.setState k { x with workerActive := true })
      else if !x.pending then (.queuedFollowUp,s.setState k { x with pending := true })
      else (.coalesced,s)
  | .nextTriggerOrStop k, _ =>
    (s.states k).bind fun x => (s.tasks i).map fun me =>
      if x.pending then (true,s.setState k { x with pending := false })
      else (false,(s.setState k { x with workerActive := false }).setTask i
        { me with lease := none })
  | .track k t, _ =>
    (s.states k).map fun x =>
      if x.cancelled then (false,s)
      else (true,s.setState k { x with
        maintenanceTasks := x.maintenanceTasks.filter (!s.isDone ·)++[t] })
  | .removeDead ns, _ =>
    match s.sessions.lookup ns with
    | none => some ((),s)
    | some n => some ((),if s.dead n then { s with sessions := s.sessions.erase ns } else s)
  | .hasSlot ns, _ => some ((s.sessions.lookup ns).isSome,s)
  | .reserve ns, _ =>
    (s.tasks i).map fun me =>
      if s.restoring ns then (false,s)
      else (true,{ s.setTask i { me with reservation := some ns } with
        restoring := Function.update s.restoring ns true })
  | .choose, .flag b => some (b,s)
  | .choose, _ => none
  | .rounds, .number n => some (n,s)
  | .rounds, _ => none

def OnceCell.release {α : Type} (c : OnceCell α) (i : Task) : OnceCell α :=
  if c.permit=some i then { c with permit := none } else c

def Slot.release (x : Slot) (i : Task) : Slot :=
  { x with cell := x.cell.release i, clones := x.clones.filter (·≠i) }

/-- `lease` says that the leaving task was the namespace's compaction worker. -/
def NamespaceState.release (x : NamespaceState) (i : Task) (lease : Bool) : NamespaceState :=
  { x with
    writer := if x.writer=some i then none else x.writer
    quiesced := x.quiesced.release i
    workerActive := if lease then false else x.workerActive
    pending := if lease then false else x.pending }

def unreserve (restoring : String → Bool) : Option String → String → Bool
  | some ns => Function.update restoring ns false
  | none => restoring

/-- The end of task `i`, by itself or by cancellation: everything it owns is dropped. -/
def Registry.dropTask (i : Task) (s : Registry) : Registry :=
  match s.tasks i with
  | none => s
  | some me =>
    { s with
      sessionsLock := if s.sessionsLock=some i then none else s.sessionsLock
      slots := fun n => (s.slots n).release i
      states := fun k => (s.states k).map (·.release i (me.lease=some k))
      restoring := unreserve s.restoring me.reservation
      tasks := Function.update s.tasks i (some { me with done := true, reservation := none, lease := none }) }

end NamiDB.Server
