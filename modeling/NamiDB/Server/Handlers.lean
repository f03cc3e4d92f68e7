import NamiDB.Server.Registry

/-! The server's requests and background tasks as programs over the registry. Parsing, planning,
authorisation and the answers to clients are left out; where they or the store decide how a
program goes on, it asks the environment (`choose`). -/
namespace NamiDB.Server
open Lib

abbrev Serve := Prog Reply

abbrev send (o : Request) : Serve (Reply o) := Prog.request o

/-- A loop of the source runs for as long as the environment lets it. -/
def loop (body : Serve Bool) : Nat → Serve Unit
  | 0 => pure ()
  | n+1 => do
    if ← body then loop body n else pure ()

def ignoring {α : Type} (p : Serve α) : Serve Unit := do
  let _ ← p
  pure ()

def onlyIf (c : Bool) (p : Serve Unit) : Serve Unit := if c then p else pure ()

def validNamespace (ns : String) : Bool :=
  let alnum (c : Char) := ('a' ≤ c&&c ≤ 'z')||('0' ≤ c&&c ≤ '9')
  ns.utf8ByteSize≤63&&match ns.toList with
    | [] => false
    | first::rest => alnum first&&rest.all fun c => alnum c||c == '-' || c == '_'

def markRetired (k : Incarnation) : Serve Unit := do
  send (.retire k)
  send (.cancel k)

def cancelAndAbortMaintenance (k : Incarnation) : Serve Unit := do
  send (.cancel k)
  let handles ← send (.takeHandles k)
  handles.forM fun t => send (.abort t)
  handles.forM fun t => send (.join t)

def quiesce (k : Incarnation) : Serve Unit := do
  if ← send (.enterQuiesce k) then pure ()
  else
    cancelAndAbortMaintenance k
    send (.drainWriter k)
    send (.unlockWriter k)
    send (.setQuiesced k)

def drain (k : Incarnation) : Serve Unit := do
  quiesce k
  send (.removeDraining k)

/-- The `while` of `insert_slot`. Every round takes an entry out of the map, so as many rounds as
the map has entries leave it empty and below any capacity. -/
def evictIdle : Nat → List Incarnation → Serve (Bool × List Incarnation)
  | 0, victims => pure (true,victims)
  | fuel+1, victims => do
    if ← send .atCapacity then
      match ← send .findIdleOldest with
      | none => pure (false,victims)
      | some ns =>
        match ← send (.removeSlot ns) with
        | none => evictIdle fuel victims
        | some k =>
          markRetired k
          send (.insertDraining k)
          evictIdle fuel (victims++[k])
    else pure (true,victims)

/-- The part of `insert_slot` under the session lock: the slot, if there is one now, and the
namespaces that were evicted for it. -/
def claimSlot (ns : String) : Serve (Option SlotId × List Incarnation) := do
  match ← send (.findSlot ns) with
  | some n => pure (some n,[])
  | none =>
    if ← send (.isRestoring ns) then pure (none,[])
    else
      let (room,victims) ← evictIdle (← send .sessionCount) []
      if room then pure (some (← send (.newSlot ns)),victims)
      else pure (none,victims)

def insertSlot (ns : String) : Serve (Option SlotId) := do
  if validNamespace ns then
    send .lockSessions
    let (inserted,victims) ← claimSlot ns
    send .unlockSessions
    victims.forM drain
    pure inserted
  else pure none

def drainPrevious (ns : String) : Serve Unit := do
  match ← send (.getDraining ns) with
  | some k => drain k
  | none => pure ()

def openNamespace (ns : String) (n : SlotId) : Serve (Option Incarnation) := do
  drainPrevious ns
  let k ← send (.openWriter ns)
  if ← send .choose then
    send (.publish n k)
    pure (some k)
  else
    send (.leaveSlot n)
    pure none

def initSlot (ns : String) (n : SlotId) : Serve (Option Incarnation) := do
  match ← send (.enterSlot n) with
  | some k => pure (some k)
  | none => openNamespace ns n

def getOrOpen (ns : String) : Serve (Option Incarnation) := do
  match ← send (.getSlot ns) with
  | some n => initSlot ns n
  | none =>
    match ← insertSlot ns with
    | some n => initSlot ns n
    | none => pure none

/-- At the memory limit an admin operation only takes a namespace that is open already. -/
def getForAdmin (ns : String) (overLimit : Bool) : Serve (Option Incarnation) :=
  if overLimit then send (.peek ns) else getOrOpen ns

def beginRestore (ns : String) : Serve Bool := do
  if validNamespace ns then
    send .lockSessions
    send (.removeDead ns)
    let draining ← send (.getDraining ns)
    let inUse ← send (.hasSlot ns)
    if inUse||draining.isSome then
      send .unlockSessions
      pure false
    else
      let reserved ← send (.reserve ns)
      send .unlockSessions
      pure reserved
  else pure false

/-- `REOPEN_ATTEMPTS` attempts to reopen the writer, while they fail. -/
def reopenAttempts (k : Incarnation) (path : Path) : Nat → Serve Unit
  | 0 => pure ()
  | n+1 => do
    send (.operate k .reopen path)
    if ← send .choose then pure () else reopenAttempts k path n

/-- Whether the error calls for a reopen depends on it, on the session and on the fence policy. -/
def recoverWriterIfNeeded (k : Incarnation) (path : Path) : Serve Unit := do
  if ← send .choose then reopenAttempts k path 3 else pure ()

def recoverUnlessRetired (k : Incarnation) (path : Path) : Serve Unit := do
  if ← send (.isRetired k) then pure () else recoverWriterIfNeeded k path

/-- Commits the staged group, if there is anything staged; `false` when the commit failed. -/
def commitGroupLocked (k : Incarnation) (path : Path) : Serve Bool := do
  if ← send .choose then
    send (.operate k .commit path)
    if ← send .choose then pure true
    else
      recoverWriterIfNeeded k path
      pure false
  else pure true

/-- The body of a critical section that runs only on an incarnation still in the registry. -/
def unlessRetired (k : Incarnation) (body : Serve Unit) : Serve Unit := do
  if ← send (.isRetired k) then send (.unlockWriter k)
  else
    body
    send (.unlockWriter k)

inductive CompactionPass where
  | cancelled | noop | applied | stale | failed

/-- `is_cancelled` of the pass's receiver; a pass without one is never cancelled. -/
def isCancelled (k : Incarnation) (cancellable : Bool) : Serve Bool :=
  if cancellable then send (.isCancelled k) else pure false

def recoverUnlessCancelled (k : Incarnation) (path : Path) (cancellable : Bool) : Serve Unit := do
  if ← isCancelled k cancellable then pure () else recoverWriterIfNeeded k path

def installLocked (k : Incarnation) (path : Path) (cancellable : Bool) : Serve CompactionPass := do
  send (.operate k .install path)
  if ← send .choose then
    if ← send .choose then pure .applied else pure .noop
  else
    recoverUnlessCancelled k path cancellable
    if ← send .choose then pure .stale else pure .failed

def installPrepared (k : Incarnation) (path : Path) (cancellable : Bool) :
    Serve CompactionPass := do
  send (.lockWriter k)
  if ← isCancelled k cancellable then
    send (.unlockWriter k)
    pure .cancelled
  else
    let pass ← installLocked k path cancellable
    send (.unlockWriter k)
    pure pass

def runCompactionPass (k : Incarnation) (path : Path) (cancellable : Bool) :
    Serve CompactionPass := do
  send (.lockWriter k)
  let cancelled ← isCancelled k cancellable
  send (.unlockWriter k)
  if cancelled then pure .cancelled
  else if !(← send .choose) then pure .noop
  -- preparing may fail
  else if !(← send .choose) then
    if ← send .choose then pure .stale else pure .failed
  else if ← isCancelled k cancellable then pure .cancelled
  else installPrepared k path cancellable

def workerRound (k : Incarnation) (cancellable : Bool) : Serve Bool := do
  if ← isCancelled k cancellable then pure false
  else
    -- the maintenance gate
    let _ ← send .choose
    if ← isCancelled k cancellable then pure false
    else
      match ← runCompactionPass k (.worker cancellable) cancellable with
      | .cancelled => pure false
      | _ => send (.nextTriggerOrStop k)

def runWorker (k : Incarnation) (cancellable : Bool) : Serve Unit := do
  loop (workerRound k cancellable) (← send .rounds)

def requestCompaction (k : Incarnation) (cancellable : Bool) : Serve (Option Task) := do
  match ← send (.admitTrigger k) with
  | .startWorker => do
    let t ← send (.spawn (.worker k cancellable))
    pure (some t)
  | _ => pure none

/-- A maintenance loop's compaction request: a worker that the namespace no longer accepts is
aborted and waited for. -/
def requestTracked (k : Incarnation) : Serve Unit := do
  match ← requestCompaction k true with
  | none => pure ()
  | some t =>
    if ← send (.track k t) then pure ()
    else
      send (.abort t)
      send (.join t)

def observeIdle (k : Incarnation) : Serve Unit := do
  send (.lockWriter k)
  send (.unlockWriter k)

/-- The passes of `drain_compaction` that are left, and how many installs in a row it lost. -/
def drainPasses (k : Incarnation) : Nat → Nat → Bool → Serve Unit
  | 0, _, _ => pure ()
  | n+1, racesLost, applied => do
    let _ ← send .choose
    match ← runCompactionPass k .adminCompact false with
    | .applied => drainPasses k n 0 true
    | .cancelled | .noop => observeIdle k
    | .stale =>
      if racesLost<8 then drainPasses k n (racesLost+1) applied
      else if applied then observeIdle k else pure ()
    | .failed => if applied then observeIdle k else pure ()

def drainCompaction (k : Incarnation) : Serve Unit := drainPasses k 128 0 false

/-- One round of `group_committer_loop`. The mutex is taken without looking at the incarnation
again. -/
def committerRound (k : Incarnation) : Serve Bool := do
  if ← send .choose then
    let _ ← send .choose
    send (.lockWriter k)
    let _ ← commitGroupLocked k .committer
    send (.unlockWriter k)
    pure true
  else
    let cancelled ← send (.isCancelled k)
    pure !cancelled

def flushLocked (k : Incarnation) (path : Path) : Serve Bool := do
  send (.operate k .flush path)
  if ← send .choose then send .choose
  else
    recoverUnlessRetired k path
    pure false

def commitThenFlush (k : Incarnation) (path : Path) (groupCommit : Bool) : Serve Bool := do
  if groupCommit then
    if ← commitGroupLocked k path then flushLocked k path else pure false
  else flushLocked k path

def flushRound (groupCommit : Bool) (k : Incarnation) : Serve Bool := do
  let _ ← send .choose
  if ← send (.isCancelled k) then pure false
  -- the retry after a failed flush waits
  else if ← send .choose then pure true
  else
    send (.lockWriter k)
    if ← send (.isRetired k) then
      send (.unlockWriter k)
      pure false
    else
      let shouldCompact ← commitThenFlush k .flushLoop groupCommit
      send (.unlockWriter k)
      onlyIf shouldCompact (requestTracked k)
      pure true

/-- One round of the compaction loop; the orphan sweep at its end touches no writer. -/
def compactionRound (k : Incarnation) : Serve Bool := do
  let _ ← send .choose
  if ← send (.isCancelled k) then pure false
  else
    requestTracked k
    let _ ← send .choose
    pure true

/-- `run_write_section_multi`. With group commit the rows are staged and left to the committer. -/
def writeLocked (groupCommit : Bool) (k : Incarnation) : Serve Unit := do
  if ← send .choose then
    if groupCommit then pure ()
    else
      send (.operate k .commit .httpWrite)
      if ← send .choose then pure () else recoverUnlessRetired k .httpWrite
  else recoverUnlessRetired k .httpWrite

def runWriteSection (groupCommit : Bool) (k : Incarnation) : Serve Unit := do
  if ← send (.lockWriterBounded k) then unlessRetired k (writeLocked groupCommit k) else pure ()

def schemaLocked (k : Incarnation) (path : Path) (recover : Serve Unit) : Serve Bool := do
  send (.operate k .commit path)
  if ← send .choose then pure true
  else
    recover
    pure false

/-- An HTTP schema statement. An index or a constraint on properties also asks for a compaction, of
a worker that no one tracks or can cancel. -/
def runSchemaStatement (k : Incarnation) (onProperties : Bool) : Serve Unit := do
  send (.lockWriter k)
  if ← send (.isRetired k) then send (.unlockWriter k)
  else
    let applied ← schemaLocked k .httpSchema (recoverUnlessRetired k .httpSchema)
    send (.unlockWriter k)
    onlyIf (applied&&onProperties) (ignoring (requestCompaction k false))

def adminFlush (groupCommit : Bool) (ns : String) (overLimit : Bool) : Serve Unit := do
  match ← getForAdmin ns overLimit with
  | none => pure ()
  | some k =>
    if ← send (.lockWriterBounded k) then
      unlessRetired k (ignoring (commitThenFlush k .adminFlush groupCommit))
    else pure ()

def adminCompact (ns : String) (overLimit : Bool) : Serve Unit := do
  match ← getForAdmin ns overLimit with
  | none => pure ()
  | some k => if ← send (.isRetired k) then pure () else drainCompaction k

def boltWriteLocked (groupCommit : Bool) (k : Incarnation) : Serve Unit := do
  if ← send .choose then
    if groupCommit then pure ()
    else
      send (.operate k .commit .bolt)
      if ← send .choose then pure () else recoverWriterIfNeeded k .bolt
  -- the client may be gone, or the statement failed
  else if ← send .choose then pure ()
  else recoverWriterIfNeeded k .bolt

def boltWrite (groupCommit : Bool) (k : Incarnation) : Serve Unit := do
  if ← send (.lockWriterBounded k) then
    boltWriteLocked groupCommit k
    send (.unlockWriter k)
  else pure ()

def boltSchema (k : Incarnation) (onProperties : Bool) : Serve Unit := do
  if ← send (.lockWriterBounded k) then
    let applied ← schemaLocked k .bolt (recoverWriterIfNeeded k .bolt)
    send (.unlockWriter k)
    onlyIf (applied&&onProperties) (ignoring (requestCompaction k false))
  else pure ()

/-- `COMMIT` or `ROLLBACK` of an explicit transaction, which holds the mutex from its `BEGIN`. -/
def boltEnd (k : Incarnation) : Serve Unit := do
  if ← send .choose then
    send (.operate k .commit .bolt)
    if ← send .choose then pure () else recoverWriterIfNeeded k .bolt
  else pure ()

/-- A staged group is settled first. The statements of the transaction only stage rows. -/
def boltTransactionLocked (groupCommit : Bool) (k : Incarnation) : Serve Unit := do
  if groupCommit then
    if ← commitGroupLocked k .bolt then boltEnd k else pure ()
  else boltEnd k

def boltTransaction (groupCommit : Bool) (k : Incarnation) : Serve Unit := do
  if ← send (.lockWriterBounded k) then
    boltTransactionLocked groupCommit k
    send (.unlockWriter k)
  else pure ()

inductive Statement where
  | read
  | write
  | schema (onProperties : Bool)
  | transaction

inductive Call where
  | http (ns : String) (statement : Statement)
  | bolt (ns : String) (statement : Statement)
  | adminFlush (ns : String) (overLimit : Bool)
  | adminCompact (ns : String) (overLimit : Bool)
  | restore (ns : String)

/-- A write runs on a task of its own, so that a client that goes away does not drop it; HTTP has no
transactions. -/
def httpStatement (k : Incarnation) : Statement → Serve Unit
  | .read => ignoring (send .choose)
  | .write => do
    let t ← send (.spawn (.writeSection k))
    send (.join t)
  | .schema onProperties => runSchemaStatement k onProperties
  | .transaction => pure ()

def boltStatement (groupCommit : Bool) (k : Incarnation) : Statement → Serve Unit
  | .read => ignoring (send .choose)
  | .write => boltWrite groupCommit k
  | .schema onProperties => boltSchema k onProperties
  | .transaction => boltTransaction groupCommit k

def onNamespace (ns : String) (f : Incarnation → Serve Unit) : Serve Unit := do
  match ← getOrOpen ns with
  | none => pure ()
  | some k => f k

def adminRestore (ns : String) : Serve Unit := do
  if ← beginRestore ns then
    -- the permit of the copy
    if ← send .choose then
      let t ← send .spawnCopy
      send (.join t)
    else pure ()
  else pure ()

def Call.program (groupCommit : Bool) : Call → Serve Unit
  | .http ns statement => onNamespace ns fun k => httpStatement k statement
  | .bolt ns statement => onNamespace ns fun k => boltStatement groupCommit k statement
  | .adminFlush ns overLimit => Server.adminFlush groupCommit ns overLimit
  | .adminCompact ns overLimit => Server.adminCompact ns overLimit
  | .restore ns => adminRestore ns

def Job.program (groupCommit : Bool) : Job → Serve Unit
  | .request => pure ()
  | .writeSection k => runWriteSection groupCommit k
  | .restoreCopy => ignoring (send .choose)
  | .committer k => do loop (committerRound k) (← send .rounds)
  | .flushLoop k => do loop (flushRound groupCommit k) (← send .rounds)
  | .compactionLoop k => do loop (compactionRound k) (← send .rounds)
  | .worker k cancellable => runWorker k cancellable

def launch (s : Registry) (i : Task) (call : Option Call) : Option (Serve Unit × Registry) :=
  match call with
  | some c =>
    if i=s.nextTask then
      some (c.program s.maintenance.groupCommit,s.addTask { job := .request, started := true })
    else none
  | none =>
    match s.tasks i with
    | none => none
    | some x =>
      if x.started then none
      else some (x.job.program s.maintenance.groupCommit,s.setTask i { x with started := true })

/-- The server. A client's task can be cancelled at any time, another one after its abort. -/
def server : Runtime Registry Task Reply where
  sem i s o r s' := ∃ c, handle i s o c=some (r,s')
  launch s i p s' := ∃ call, launch s i call=some (p,s')
  waits o := o.waits=true
  cancels i s := ∃ x, s.tasks i=some x ∧ (x.job = .request ∨ x.aborted=true)
  drop := Registry.dropTask

end NamiDB.Server
