import NamiDB.Bolt.Message
import NamiDB.Lib.Actor
import NamiDB.Query.Write

/-! One Bolt connection, as a program of requests to its socket, its clock and its backend. Memory
leases, logging and the text form of parameters are left out. -/
namespace NamiDB.Bolt
open Lib Query Actor

inductive State where
  | negotiation | connected | authentication | ready | streaming | txReady | txStreaming | failed | defunct
  deriving DecidableEq

namespace State

def debug : State → String
  | negotiation => "Negotiation"
  | connected => "Connected"
  | authentication => "Authentication"
  | ready => "Ready"
  | streaming => "Streaming"
  | txReady => "TxReady"
  | txStreaming => "TxStreaming"
  | failed => "Failed"
  | defunct => "Defunct"

def inTx : State → Bool
  | txReady | txStreaming => true
  | _ => false

def mayHoldTx : State → Bool
  | txReady | txStreaming | failed => true
  | _ => false

def acceptsQueries : State → Bool
  | ready | streaming | txReady | txStreaming => true
  | _ => false

end State

inductive BackendErrorKind where
  | syntaxError | semantic | unsupported | eval | storage | constraint | forbidden | accessMode | timeout
  | resourceLimit | cancelled | other
  deriving DecidableEq

structure BackendError where
  kind : BackendErrorKind
  message : String

def BackendError.code (self : BackendError) : String :=
  match self.kind with
  | .syntaxError => "Neo.ClientError.Statement.SyntaxError"
  | .semantic => "Neo.ClientError.Statement.SemanticError"
  | .unsupported => "Neo.ClientError.Statement.NotSupported"
  | .eval => "Neo.ClientError.Statement.ArgumentError"
  | .storage => "Neo.TransientError.General.DatabaseUnavailable"
  | .constraint => "Neo.ClientError.Schema.ConstraintValidationFailed"
  | .forbidden => "Neo.ClientError.Security.Forbidden"
  | .accessMode => "Neo.ClientError.Statement.AccessMode"
  | .timeout => "Neo.ClientError.Transaction.TransactionTimedOut"
  | .cancelled => "Neo.TransientError.Transaction.Terminated"
  | .resourceLimit => "Neo.ClientError.Statement.ResourceLimitExceeded"
  | .other => "Neo.DatabaseError.General.UnknownError"

inductive StatementType where
  | read | write | schema | readWrite
  deriving DecidableEq

def StatementType.asStr : StatementType → String
  | .read => "r"
  | .write => "w"
  | .schema => "s"
  | .readWrite => "rw"

structure RunOutcome where
  fields : List String
  rows : List Row
  statementType : StatementType
  counters : List (String × Int)

/-- `openAccess` takes any credentials; `custom` asks an authenticator of the embedder. -/
inductive AuthPolicy where
  | openAccess
  | token (expected : String)
  | custom

def stringField (extra : ValueMap) (key : String) : Option String :=
  match extra.lookup key with
  | some (.string s) => some s
  | _ => none

def AuthPolicy.check (self : AuthPolicy) (extra : ValueMap) : Except String Unit :=
  let scheme := (stringField extra "scheme").getD "none"
  match self with
  | .openAccess => .ok ()
  | .token expected =>
    if scheme = "none" then .error "server requires authentication; got scheme=\"none\""
    else if scheme = "basic" ∨ scheme = "bearer" then
      match stringField extra "credentials" with
      | some presented => if presented=expected then .ok () else .error "invalid credentials"
      | none => .error "invalid credentials"
    else .error ("unsupported auth scheme `" ++ scheme ++ "`")
  | .custom => .error ("unsupported auth scheme `" ++ scheme ++ "`")

inductive Timer where
  | unlimited
  | txIdle (limit : Nat)
  | preAuth (limit : Nat)

inductive ElementIdMode where
  | integerIds | elementIds
  deriving DecidableEq

structure Config where
  agent : String
  connectionId : String
  auth : AuthPolicy
  postAuthMessageBytes : Nat
  budgeted : Bool
  partialMessageTimeout : Option Nat
  txIdleTimeout : Option Nat
  handshakeTimeout : Option Nat
  maxTxLifetime : Option Nat
  runtimeToBolt : ElementIdMode → RuntimeValue → Value

/-- What a session asks for. `startRun` hands a statement to the backend and `select` waits for its end
or the next message, whichever comes first; `enter` is an assignment to the state of the session. -/
inductive Op where
  | readHandshake (limit : Option Nat)
  | writeHandshake (version : Option Version)
  | now
  | elapsed (since : Nat)
  | readMessage (maxBytes : Nat) (budgeted : Bool) (partialTimeout : Option Nat) (timer : Timer)
  | admitRequestDecode (wireBytes : Nat)
  | authenticate (extra : ValueMap)
  | startRun (insideTx : Bool) (db : Option String) (cypher : String) (params : ValueMap)
  | select (maxBytes : Nat)
  | cancelRun
  | awaitRun
  | beginTx (db : Option String) (readOnly : Bool)
  | commitTx
  | rollbackTx
  | currentBookmark
  | logoff
  | write (response : Response)
  | drainOversized
  | enter (state : State)

inductive ReadReply where
  | got (body : List UInt8)
  | failed (error : BoltError)
  | elapsed

inductive SelectReply where
  | got (body : List UInt8)
  | failed (error : BoltError)
  | finished (result : Except BackendError RunOutcome)

def Res : Op → Type
  | .readHandshake _ => Option (Except BoltError (Vector UInt8 20))
  | .writeHandshake _ => Except BoltError Unit
  | .now => Nat
  | .elapsed _ => Nat
  | .readMessage _ _ _ _ => ReadReply
  | .admitRequestDecode _ => Except BackendError Unit
  | .authenticate _ => Except String Unit
  | .startRun _ _ _ _ => Unit
  | .select _ => SelectReply
  | .cancelRun => Unit
  | .awaitRun => Except BackendError RunOutcome
  | .beginTx _ _ => Except BackendError Unit
  | .commitTx => Except BackendError Unit
  | .rollbackTx => Except BackendError Unit
  | .currentBookmark => Option String
  | .logoff => Unit
  | .write _ => Except BoltError Unit
  | .drainOversized => Bool
  | .enter _ => Unit

structure Session where
  state : State := .negotiation
  version : Option Version := none
  pendingStatementType : Option StatementType := none
  pendingFields : List String := []
  pendingRows : List Row := []
  pendingCounters : List (String × Int) := []
  prefetched : List (List UInt8) := []
  prefetchedBytes : Nat := 0
  txStarted : Option Nat := none
  authenticated : Bool := false

abbrev SessionM := Actor Res Session BoltError

/-! The requests with the types of their replies. -/
namespace Env

def readHandshake (limit : Option Nat) : SessionM (Option (Except BoltError (Vector UInt8 20))) :=
  ask (Op.readHandshake limit)

def writeHandshake (version : Option Version) : SessionM (Except BoltError Unit) :=
  ask (Op.writeHandshake version)

def now : SessionM Nat := ask Op.now

def elapsed (since : Nat) : SessionM Nat := ask (Op.elapsed since)

def readMessage (maxBytes : Nat) (budgeted : Bool) (partialTimeout : Option Nat) (timer : Timer) :
    SessionM ReadReply :=
  ask (Op.readMessage maxBytes budgeted partialTimeout timer)

def admitRequestDecode (wireBytes : Nat) : SessionM (Except BackendError Unit) :=
  ask (Op.admitRequestDecode wireBytes)

def authenticate (extra : ValueMap) : SessionM (Except String Unit) := ask (Op.authenticate extra)

def startRun (insideTx : Bool) (db : Option String) (cypher : String) (params : ValueMap) : SessionM Unit :=
  ask (Op.startRun insideTx db cypher params)

def select (maxBytes : Nat) : SessionM SelectReply := ask (Op.select maxBytes)

def cancelRun : SessionM Unit := ask Op.cancelRun

def awaitRun : SessionM (Except BackendError RunOutcome) := ask Op.awaitRun

def beginTx (db : Option String) (readOnly : Bool) : SessionM (Except BackendError Unit) :=
  ask (Op.beginTx db readOnly)

def commitTx : SessionM (Except BackendError Unit) := ask Op.commitTx

def rollbackTx : SessionM (Except BackendError Unit) := ask Op.rollbackTx

def currentBookmark : SessionM (Option String) := ask Op.currentBookmark

def logoff : SessionM Unit := ask Op.logoff

def write (response : Response) : SessionM (Except BoltError Unit) := ask (Op.write response)

def drainOversized : SessionM Bool := ask Op.drainOversized

def enter (state : State) : SessionM Unit := ask (Op.enter state)

end Env

def preAuthMessageBytes : Nat := 64*1024

def maxPrefetchedMessages : Nat := 16

def dbFromExtra (extra : ValueMap) : Option String :=
  match stringField extra "db" with
  | some s => if s.isEmpty then none else some s
  | none => none

def readOnlyFromExtra (extra : ValueMap) : Bool := stringField extra "mode" = some "r"

def isFrameMemoryRejection : BoltError → Bool
  | .tooLarge _ _ _ | .decodedTooLarge _ _ _ _ | .memoryBudgetExhausted _ _ _ _ => true
  | _ => false

def enter (state : State) : SessionM Unit := do
  Env.enter state
  modify fun s => { s with state }

def writeResponse (response : Response) : SessionM Unit := do
  Actor.ofExcept (← Env.write response)

def supportsGql (version : Option Version) : Bool :=
  match version with
  | some v => decide (5<v.major)||(v.major=5&&decide (7≤v.minor))
  | none => false

def writeFailure (code message : String) : SessionM Unit := do
  let s ← get
  writeResponse (if supportsGql s.version then .failureWithGql code message else .failureOf code message)

def clearPending (s : Session) : Session :=
  { s with pendingRows := [], pendingFields := [], pendingStatementType := none, pendingCounters := [] }

def rollbackWhen (holds : State → Bool) : SessionM Unit := do
  let s ← get
  if holds s.state then
    let _ ← Env.rollbackTx
    pure ()
  else pure ()

def rollbackIfOpenTx : SessionM Unit := rollbackWhen State.mayHoldTx

/-- Enters FAILED without leaving a transaction open behind it. -/
def failRequest (code message : String) : SessionM Unit := do
  modify clearPending
  rollbackWhen State.inTx
  modify fun s => { s with txStarted := none }
  enter .failed
  writeFailure code message

def failBackend (e : BackendError) : SessionM Unit := failRequest e.code e.message

def invalidState (why : String) : SessionM Unit := do
  let s ← get
  failRequest "Neo.ClientError.Request.Invalid" ("invalid request in state " ++ s.state.debug ++ ": " ++ why)

section
variable (cfg : Config)

def currentMessageLimit (s : Session) : Nat :=
  if s.authenticated then cfg.postAuthMessageBytes else preAuthMessageBytes

def prefetchReadLimit (s : Session) : Nat :=
  if s.prefetched.length≥maxPrefetchedMessages then 0
  else cfg.postAuthMessageBytes-s.prefetchedBytes

def oversizedFailure (error : BoltError) : String × String :=
  match error with
  | .memoryBudgetExhausted _ _ _ _ => ("Neo.TransientError.General.DatabaseUnavailable",
      error.display ++ "; authenticated Bolt working-set capacity is temporarily busy; " ++
        "retry with a smaller batch")
  | .tooLarge what _ _ =>
    if what = "Bolt in-flight message memory" ∨ what = "Bolt framed message" then
      ("Neo.ClientError.Request.Invalid",error.display ++ "; split the request into smaller batches or raise " ++
          "NAMIDB_BOLT_MEMORY_BUDGET_BYTES with matching process/cgroup headroom")
    else ("Neo.ClientError.Request.Invalid",limited)
  | _ => ("Neo.ClientError.Request.Invalid",limited)
where
  limited : String :=
    error.display ++ "; authenticated Bolt messages are limited to " ++
      toString cfg.postAuthMessageBytes ++ " bytes by " ++
      "NAMIDB_BOLT_MAX_MESSAGE_BYTES; split the request into smaller batches or " ++
      "raise the server limit"

def drained (drainCurrentFrame : Bool) : SessionM Bool :=
  if drainCurrentFrame then Env.drainOversized else pure true

/-- A diagnostic before an authenticated connection closes; a failure to send it is dropped. -/
def writeOversizedMessageFailure (error : BoltError) (drainCurrentFrame : Bool) : SessionM Unit := do
  let s ← get
  if s.authenticated then
    if ← drained drainCurrentFrame then
      let _ ← attempt (writeFailure (oversizedFailure cfg error).1 (oversizedFailure cfg error).2)
      pure ()
    else pure ()
  else pure ()

def handleInConnected (req : Request) : SessionM Unit := do
  let s ← get
  match req with
  | .hello extra =>
    let metadata := mapOf ([("server",.string cfg.agent),("connection_id",.string cfg.connectionId),
      ("hints",.map [])]++s.version.toList.map fun v => ("protocol_version",.string v.display))
    if (s.version.map Version.major).getD 5≥5 then
      enter .authentication
      writeResponse (.success metadata)
    else
      match ← Env.authenticate extra with
      | .error e => failRequest "Neo.ClientError.Security.Unauthorized" e
      | .ok () =>
        modify fun s => { s with authenticated := true }
        enter .ready
        writeResponse (.success metadata)
  | _ => invalidState "HELLO required"

def handleInAuthentication (req : Request) : SessionM Unit := do
  match req with
  | .logon extra =>
    match ← Env.authenticate extra with
    | .error e => failRequest "Neo.ClientError.Security.Unauthorized" e
    | .ok () =>
      modify fun s => { s with authenticated := true }
      enter .ready
      writeResponse .successEmpty
  | _ => invalidState "LOGON required"

/-- The connection goes away, with everything that was read ahead; the statement is not dropped halfway. -/
def abandonRun (error : BoltError) (diagnose drainCurrentFrame : Bool) : SessionM Unit := do
  Env.cancelRun
  modify fun s => { s with prefetched := [], prefetchedBytes := 0 }
  let _ ← Env.awaitRun
  if diagnose then writeOversizedMessageFailure cfg error drainCurrentFrame
  else pure ()

/-- Waits for the statement and keeps what the client sends in the meantime; `room` more messages fit. -/
def awaitStatement (room : Nat) : SessionM (Except BackendError RunOutcome) := do
  let s ← get
  match ← Env.select (prefetchReadLimit cfg s) with
  | .finished result => pure result
  | .failed error =>
    abandonRun cfg error (isFrameMemoryRejection error) true
    throw error
  | .got body =>
    let nextBytes := s.prefetchedBytes+body.length
    let error := BoltError.tooLarge "pipelined messages during RUN" nextBytes cfg.postAuthMessageBytes
    match room with
    | 0 =>
      abandonRun cfg error true false
      throw error
    | room+1 =>
      if nextBytes>cfg.postAuthMessageBytes then
        abandonRun cfg error true false
        throw error
      else
        modify fun s => { s with prefetched := s.prefetched++[body], prefetchedBytes := nextBytes }
        awaitStatement room

def startStream (outcome : RunOutcome) (insideTx : Bool) : SessionM Unit := do
  writeResponse (.success (mapOf [("fields",.list (outcome.fields.map .string)),("t_first",.int 0)]))
  modify fun s => { s with pendingFields := outcome.fields, pendingRows := outcome.rows }
  enter (if insideTx then .txStreaming else .streaming)
  modify fun s => { s with
    pendingStatementType := some outcome.statementType, pendingCounters := outcome.counters }

def executeRun (cypher : String) (params : ValueMap) (insideTx : Bool) (db : Option String) :
    SessionM Unit := do
  Env.startRun insideTx db cypher params
  let s ← get
  match ← awaitStatement cfg (maxPrefetchedMessages-s.prefetched.length) with
  | .ok outcome => startStream outcome insideTx
  | .error e => failBackend e

def commit : SessionM Unit := do
  match ← Env.commitTx with
  | .error e => failBackend e
  | .ok () =>
    let bookmark ← Env.currentBookmark
    enter .ready
    writeResponse (.success (mapOf (bookmark.toList.map fun b => ("bookmark",.string b))))

def serverBlock (role : String) : Value :=
  .map (mapOf [("role",.string role),("addresses",.list [.string "self"])])

def respondRoute : SessionM Unit :=
  writeResponse (.success (mapOf [("rt",.map (mapOf [("ttl",.int 300),("db",.string "namidb"),
    ("servers",.list [serverBlock "WRITE",serverBlock "READ",serverBlock "ROUTE"])]))]))

def handleInReady (req : Request) : SessionM Unit := do
  match req with
  | .run cypher params extra => executeRun cfg cypher params false (dbFromExtra extra)
  | .begin extra =>
    match ← Env.beginTx (dbFromExtra extra) (readOnlyFromExtra extra) with
    | .ok () =>
      enter .txReady
      writeResponse .successEmpty
    | .error e => failBackend e
  | .route _ _ _ => respondRoute
  | .logoff =>
    Env.logoff
    modify fun s => { s with authenticated := false }
    enter .authentication
    writeResponse .successEmpty
  | .telemetry _ => writeResponse .successEmpty
  | .pull _ | .discard _ => invalidState "PULL/DISCARD outside a stream"
  | .commit | .rollback => invalidState "COMMIT/ROLLBACK outside a transaction"
  | _ => invalidState "unexpected message in READY"

def handleInTxReady (req : Request) : SessionM Unit := do
  match req with
  | .run cypher params _ => executeRun cfg cypher params true none
  | .commit => commit
  | .rollback =>
    match ← Env.rollbackTx with
    | .ok () =>
      enter .ready
      writeResponse .successEmpty
    | .error e => failBackend e
  | _ => invalidState "unexpected message in TX_READY"

def recordOf (mode : ElementIdMode) (fields : List String) (row : Row) : List Value :=
  fields.map fun name => ((row name).map (cfg.runtimeToBolt mode)).getD .null

def takeRows (mode : ElementIdMode) (isPull : Bool) : Nat → SessionM Unit
  | 0 => pure ()
  | n+1 => do
    let s ← get
    match s.pendingRows with
    | [] => pure ()
    | row::rest =>
      modify fun s => { s with pendingRows := rest }
      if isPull then
        writeResponse (.record (recordOf cfg mode s.pendingFields row))
        takeRows mode isPull n
      else takeRows mode isPull n

def batchSize (extra : ValueMap) (available : Nat) : Nat :=
  match extra.lookup "n" with
  | some (.int n) => if n<0 then available else min n.toNat available
  | _ => available

def summaryOf (s : Session) : ValueMap :=
  mapOf ([("type",.string (s.pendingStatementType.getD .read).asStr)] ++ (if s.pendingCounters.isEmpty then []
      else [("stats",.map (mapOf (s.pendingCounters.map fun (k,v) => (k,.int v))))]))

def drainStream (mode : ElementIdMode) (isPull : Bool) (extra : ValueMap) : SessionM Unit := do
  let s ← get
  takeRows cfg mode isPull (batchSize extra s.pendingRows.length)
  let s ← get
  if s.pendingRows.isEmpty then
    modify clearPending
    enter (if s.state = .txStreaming then .txReady else .ready)
    writeResponse (.success (summaryOf s))
  else writeResponse (.success (mapOf [("has_more",.bool true)]))

def handleInStreaming (mode : ElementIdMode) (req : Request) : SessionM Unit :=
  match req with
  | .pull extra => drainStream cfg mode true extra
  | .discard extra => drainStream cfg mode false extra
  | _ => invalidState "only PULL/DISCARD valid in STREAMING"

def handleInState (mode : ElementIdMode) (req : Request) : SessionM Unit := do
  let s ← get
  match s.state with
  | .connected => handleInConnected cfg req
  | .authentication => handleInAuthentication req
  | .ready => handleInReady cfg req
  | .streaming | .txStreaming => handleInStreaming cfg mode req
  | .txReady => handleInTxReady cfg req
  | .negotiation | .failed | .defunct => writeResponse .ignored

def handleReset : SessionM Unit := do
  rollbackWhen State.mayHoldTx
  modify clearPending
  enter .ready
  writeResponse .successEmpty

def handleGoodbye : SessionM Unit := do
  rollbackWhen State.mayHoldTx
  enter .defunct

def Request.isReset : Request → Bool
  | .reset => true
  | _ => false

def Request.isGoodbye : Request → Bool
  | .goodbye => true
  | _ => false

def handle (mode : ElementIdMode) (req : Request) : SessionM Unit := do
  let s ← get
  if req.isReset&&s.authenticated then handleReset
  else if req.isGoodbye then handleGoodbye
  else if s.state = .failed then writeResponse .ignored
  else handleInState cfg mode req

end

section
variable (cfg : Config)

inductive Turn where
  | next | done
  deriving DecidableEq

def doHandshake : SessionM Unit := do
  match ← Env.readHandshake cfg.handshakeTimeout with
  | none => enter .defunct
  | some reply =>
    let bytes ← Actor.ofExcept reply
    let offers ← Actor.ofExcept (parseOffers bytes)
    let version := negotiate offers
    Actor.ofExcept (← Env.writeHandshake version)
    modify fun s => { s with version }
    enter (if version.isSome then .connected else .defunct)

def txStart : SessionM Nat := do
  let s ← get
  match s.txStarted with
  | some started => pure started
  | none =>
    let started ← Env.now
    modify fun s => { s with txStarted := some started }
    pure started

def pastLifetime : SessionM Bool := do
  let s ← get
  if s.state.inTx then
    let started ← txStart
    match cfg.maxTxLifetime with
    | some limit =>
      let age ← Env.elapsed started
      pure (decide (limit≤age))
    | none => pure false
  else
    modify fun s => { s with txStarted := none }
    pure false

def readTimer (s : Session) : Timer :=
  if s.state.inTx then (cfg.txIdleTimeout.map .txIdle).getD .unlimited
  else if s.authenticated then .unlimited
  else (cfg.handshakeTimeout.map .preAuth).getD .unlimited

def receive : SessionM ReadReply := do
  let s ← get
  match s.prefetched with
  | body::rest =>
    modify fun s => { s with prefetched := rest, prefetchedBytes := s.prefetchedBytes-body.length }
    pure (.got body)
  | [] =>
    Env.readMessage (currentMessageLimit cfg s) (s.authenticated&&cfg.budgeted)
      (if s.authenticated then cfg.partialMessageTimeout else none) (readTimer cfg s)

def readFailed (error : BoltError) : SessionM Turn := do
  rollbackIfOpenTx
  match error with
  | .io .unexpectedEof _ => pure .done
  | _ =>
    if isFrameMemoryRejection error then
      writeOversizedMessageFailure cfg error true
      throw error
    else throw error

def dispatch (mode : ElementIdMode) (req : Request) : SessionM Turn := do
  match ← attempt (handle cfg mode req) with
  | .error e =>
    rollbackIfOpenTx
    throw e
  | .ok () =>
    let s ← get
    pure (if req.isGoodbye||s.state = .defunct then .done else .next)

def decodeAndDispatch (mode : ElementIdMode) (max : Nat) (body : List UInt8) : SessionM Turn := do
  match Request.decode body max with
  | .error e =>
    failRequest "Neo.ClientError.Request.Invalid" ("malformed Bolt message: " ++ e.display)
    pure .next
  | .ok req => dispatch cfg mode req

def process (mode : ElementIdMode) (max : Nat) (body : List UInt8) : SessionM Turn := do
  let s ← get
  if s.authenticated&&requiresDecodeAdmission body then
    match ← Env.admitRequestDecode body.length with
    | .error e =>
      failBackend e
      pure .next
    | .ok () => decodeAndDispatch cfg mode max body
  else decodeAndDispatch cfg mode max body

def turn (mode : ElementIdMode) : SessionM Turn := do
  if ← pastLifetime cfg then
    failRequest "Neo.TransientError.Transaction.LockClientStopped"
      "transaction exceeded maximum lifetime; rolled back to release the writer"
    pure .next
  else
    let s ← get
    match ← receive cfg with
    | .got body => process cfg mode (currentMessageLimit cfg s) body
    | .failed error => readFailed cfg error
    | .elapsed =>
      if s.state.inTx then
        failRequest "Neo.TransientError.Transaction.LockClientStopped"
          "transaction idle timeout; rolled back to release the writer"
        pure .next
      else pure .done

def loop (mode : ElementIdMode) : Nat → SessionM Turn
  | 0 => pure .next
  | turns+1 => do
    match ← turn cfg mode with
    | .done => pure .done
    | .next => loop mode turns

def ElementIdMode.fromMajor (major : Nat) : ElementIdMode :=
  if major≥5 then .elementIds else .integerIds

def run (turns : Nat) : SessionM Turn := do
  doHandshake cfg
  let s ← get
  match s.version with
  | none => pure .done
  | some v => loop cfg (.fromMajor v.major) turns

def session (turns : Nat) : Prog Res (Except BoltError Turn × Session) := run cfg turns {}

end
end NamiDB.Bolt
