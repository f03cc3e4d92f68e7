import NamiDB.Query.Constrain

/-! The updating clauses on one row: CREATE, SET, REMOVE, DELETE and MERGE. -/
namespace NamiDB.Query
open Storage Lib

inductive RelationshipDirection where
  | right | left | both
  deriving DecidableEq

inductive CreateElement (Expr : Type) where
  | node (binding : String) (labels : List String) (properties : List (String × Expr)) (spread : Option Expr)
  | rel (binding : Option String) (edgeType sourceAlias targetAlias : String) (direction : RelationshipDirection)
      (properties : List (String × Expr)) (spread : Option Expr)

inductive SetOp (Expr : Type) where
  | property (targetAlias key : String) (value : Expr)
  | replace (targetAlias : String) (value : Expr)
  | merge (targetAlias : String) (value : Expr)
  | labels (targetAlias : String) (labels : List String)

inductive RemoveOp where
  | property (targetAlias key : String)
  | labels (targetAlias : String) (labels : List String)

def SetOp.targetAlias {Expr : Type} : SetOp Expr → String
  | .property targetAlias _ _ | .replace targetAlias _ | .merge targetAlias _ | .labels targetAlias _ => targetAlias

def RemoveOp.targetAlias : RemoveOp → String
  | .property targetAlias _ | .labels targetAlias _ => targetAlias

variable {Expr : Type} (L : Language Expr)

namespace Language

def runtimeToCore (v : RuntimeValue) (expr : Expr) : Except ExecError Value :=
  v.toCore.mapError fun typeName => .runtime (s!"property value at `{L.text expr}` is {typeName} — only scalars, " ++
    "lists, and string-keyed maps are storable")

structure Materialized where
  properties : Properties
  explicitId : Option NodeId

/-- `reserved` is the error for an `_id` where none is allowed. -/
def addProperty (reserved : Option String) (expr : Expr) (out : Materialized) (k : String) (v : RuntimeValue) :
    Except ExecError Materialized := do
  if k = "_id" then
    match reserved with
    | some message => .error (.runtime message)
    | none =>
      let id ← L.nodeId v
      pure { out with explicitId := some id }
  else
    let core ← L.runtimeToCore v expr
    pure { out with properties := out.properties.insert k core }

def applySpreadProperties (spread : Expr) (row : Row) (reserved : Option String) : Except ExecError Materialized := do
  match ← L.evaluate spread row with
  | .map entries => entries.foldlM (fun out e => L.addProperty reserved spread out e.1 e.2) ⟨∅,none⟩
  | other => .error (.runtime s!"properties spread expects a MAP, got {other.typeName}")

/-- The spread map first, so that explicit properties win. On a relationship the key `_id` is an error before its
value is evaluated. -/
def materialize (row : Row) (properties : List (String × Expr)) (spread : Option Expr) (reserved : Option String) :
    Except ExecError Materialized := do
  let start ← match spread with
    | some expr => L.applySpreadProperties expr row reserved
    | none => pure ⟨∅,none⟩
  properties.foldlM (fun out p => do
    match reserved,decide (p.1 = "_id") with
    | some message,true => .error (.runtime message)
    | _,_ =>
      let v ← L.evaluate p.2 row
      L.addProperty reserved p.2 out p.1 v) start

end Language

def expectNodeId (row : Row) (binding : String) : Except ExecError NodeId :=
  match row binding with
  | some (.node n) => .ok n.id
  | some other =>
    .error (.runtime s!"CREATE/MERGE source/target `{binding}` must be a Node, got {other.typeName}")
  | none => .error (.runtime s!"CREATE/MERGE source/target `{binding}` is not bound")

/-- An explicit `_id` must be new. -/
def chooseId (explicitId : Option NodeId) : ExecM NodeId :=
  match explicitId with
  | none => ask .nodeId
  | some id => do
    let snap ← ask .readOverlay
    let graph ← orFail snap
    if (graph.nodes.lookup id).isSome then
      throw (.constraint s!"CREATE with _id {L.nodeIdText id} conflicts with an existing node")
    else pure id

def createNode (labels : List String) (m : Language.Materialized) : ExecM NodeId := do
  let id ← chooseId L m.explicitId
  enforceUniqueOnCreate L labels m.properties none
  enforceCompositeUnique L labels m.properties none none
  enforceNotnullOnCreate labels m.properties
  let stored ← enforceVectorDims labels m.properties none
  let done ← ask (.upsertNode labels id stored)
  orFail done
  pure id

def directed (srcId dstId : NodeId) : RelationshipDirection → Except ExecError (NodeId × NodeId)
  | .right => .ok (srcId,dstId)
  | .left => .ok (dstId,srcId)
  | .both => .error (.runtime "CREATE relationship must be directed")

def applyCreateElement (row : Row) : CreateElement Expr → ExecM Row
  | .node binding labels properties spread =>
    -- a bound name is a reference back to an existing node
    if (row binding).isSome then pure row
    else do
      let m ← orFail (L.materialize row properties spread none)
      let id ← createNode L labels m
      pure (row.set binding (.node ⟨id,labels.dedup,m.properties⟩))
  | .rel binding edgeType sourceAlias targetAlias direction properties spread => do
    let srcId ← orFail (expectNodeId row sourceAlias)
    let dstId ← orFail (expectNodeId row targetAlias)
    let ends ← orFail (directed srcId dstId direction)
    let m ← orFail (L.materialize row properties spread (some "_id is not valid on a relationship CREATE"))
    let done ← ask (.upsertEdge ⟨edgeType,ends.1,ends.2⟩ m.properties)
    orFail done
    pure (match binding with
      | some name => row.set name (.rel ⟨edgeType,ends.1,ends.2,m.properties⟩)
      | none => row)

def applyCreate (elements : List (CreateElement Expr)) (row : Row) : ExecM Row :=
  elements.foldlM (applyCreateElement L) row

/-- Brings the row's value of the target up to date with the staged batch. -/
def refreshStagedWriteTarget (row : Row) (targetAlias : String) : ExecM Row :=
  match row targetAlias with
  | some (.node node) => do
    let w ← ask .session
    match w.stagedNode node.id with
    | .untouched =>
      ask (.enter (.untouchedTarget node))
      pure row
    | .tombstone => throw (.runtime s!"SET target `{targetAlias}` was deleted earlier in this transaction")
    | .upsert view => pure (row.synchronizeNodeBindings view)
  | some (.rel rel) => do
    let w ← ask .session
    match w.stagedEdge ⟨rel.edgeType,rel.src,rel.dst⟩ with
    | .untouched => pure row
    | .tombstone => throw (.runtime s!"SET target `{targetAlias}` was deleted earlier in this transaction")
    | .upsert view => pure (row.synchronizeRelBindings view)
  | _ => pure row

def rewriteNode (row : Row) (n : NodeValue) (labels : List String) (properties : Properties) : ExecM Row := do
  let done ← ask (.upsertNode labels n.id properties)
  orFail done
  pure (row.synchronizeNodeBindings ⟨n.id,labels,properties⟩)

def rewriteRel (row : Row) (r : RelValue) (properties : Properties) : ExecM Row := do
  let done ← ask (.upsertEdge ⟨r.edgeType,r.src,r.dst⟩ properties)
  orFail done
  pure (row.synchronizeRelBindings { r with properties })

def setNodeProperty (row : Row) (n : NodeValue) (key : String) (core : Value) : ExecM Row := do
  enforceUniqueOnSet L n.labels key core n.id
  let w ← ask .session
  match core.isNull, notNullLabel w.schema n.labels key with
  | true, some label =>
    throw (.constraint s!"{label}.{key} is declared NOT NULL and cannot be set to null (not-null constraint)")
  | _, _ =>
    let props := n.properties.insert key core
    enforceCompositeUnique L n.labels props (some n.id) (some [key])
    let stored ← enforceVectorDims n.labels props (some [key])
    rewriteNode row n n.labels stored

/-- A null removes its key. -/
def mergedProps (replace : Bool) (current : Properties) (incoming : List (String × Value)) : Properties :=
  incoming.foldl (fun out e => if e.2.isNull then out.erase e.1 else out.insert e.1 e.2)
    (if replace then ∅ else current)

def setNodeMap (row : Row) (n : NodeValue) (replace : Bool) (incoming : List (String × Value)) : ExecM Row := do
  let final := mergedProps replace n.properties incoming
  let changed := incoming.map (·.1)
  changed.forM fun key => match final.lookup key with
    | some value => enforceUniqueOnSet L n.labels key value n.id
    | none => pure ()
  enforceCompositeUnique L n.labels final (some n.id) (some changed)
  enforceNotnullOnCreate n.labels final
  let stored ← enforceVectorDims n.labels final (some changed)
  rewriteNode row n n.labels stored

/-- What the right-hand side of a map-form SET assigns; nothing when `+= null` has nothing to do. -/
def incomingEntries (replace : Bool) (targetAlias : String) : RuntimeValue →
    Except ExecError (Option (List (String × RuntimeValue)))
  | .map entries => .ok (some entries)
  | .node n => .ok (some (n.properties.entries.map fun e => (e.1,.ofCore e.2)))
  | .rel r => .ok (some (r.properties.entries.map fun e => (e.1,.ofCore e.2)))
  | .null => .ok (if replace then some [] else none)
  | other =>
    let op := if replace then "=" else "+="
    .error (.runtime s!"SET {targetAlias} {op} requires a map, node, or relationship, got {other.typeName}")

def coreEntries (entries : List (String × RuntimeValue)) : Except ExecError (List (String × Value)) :=
  entries.mapM fun e => (e.2.toCore.mapError fun typeName => .runtime
    (s!"property `{e.1}` cannot round-trip: {typeName} is not storable " ++
      "(only scalars, lists, and string-keyed maps round-trip)")).map fun v => (e.1,v)

def badTarget (targetAlias : String) : Option RuntimeValue → ExecError
  | some other => .runtime s!"SET target `{targetAlias}` must be a Node or Relationship, got {other.typeName}"
  | none => .runtime s!"SET target `{targetAlias}` is not bound"

def applySetMap (replace : Bool) (targetAlias : String) (value : Expr) (row : Row) : ExecM Row := do
  let v ← orFail (L.evaluate value row)
  match ← orFail (incomingEntries replace targetAlias v) with
  | none => pure row
  | some entries =>
    match row targetAlias with
    | some (.node n) => do
      let incoming ← orFail (coreEntries entries)
      setNodeMap L row n replace incoming
    | some (.rel r) => do
      let incoming ← orFail (coreEntries entries)
      rewriteRel row r (mergedProps replace r.properties incoming)
    | other => throw (badTarget targetAlias other)

def gainedLabels (current labels : List String) : List String :=
  (labels.filter fun l => l∉current).dedup

def setNodeLabels (row : Row) (n : NodeValue) (labels : List String) : ExecM Row := do
  let added := gainedLabels n.labels labels
  enforceNotnullOnCreate added n.properties
  let stored ← enforceVectorDims added n.properties none
  stored.entries.forM fun e => enforceUniqueOnSet L added e.1 e.2 n.id
  enforceCompositeUnique L added stored (some n.id) none
  rewriteNode row n (n.labels++added) stored

def applySetOp (row : Row) : SetOp Expr → ExecM Row
  | .property targetAlias key value => do
    let v ← orFail (L.evaluate value row)
    let core ← orFail (L.runtimeToCore v value)
    match row targetAlias with
    | some (.node n) => setNodeProperty L row n key core
    | some (.rel r) => rewriteRel row r (r.properties.insert key core)
    | other => throw (badTarget targetAlias other)
  | .replace targetAlias value => applySetMap L true targetAlias value row
  | .merge targetAlias value => applySetMap L false targetAlias value row
  | .labels targetAlias labels =>
    match row targetAlias with
    | some (.node n) => setNodeLabels L row n labels
    | other =>
      throw (.runtime s!"SET {targetAlias}:Label target must be a Node, got {L.debugBinding other}")

def applySet (row : Row) (op : SetOp Expr) : ExecM Row := do
  let row ← refreshStagedWriteTarget row op.targetAlias
  applySetOp L row op

def applySets (items : List (SetOp Expr)) (row : Row) : ExecM Row := items.foldlM (applySet L) row

def removeNodeProperty (row : Row) (n : NodeValue) (key : String) : ExecM Row := do
  let w ← ask .session
  match notNullLabel w.schema n.labels key with
  | some label =>
    throw (.constraint s!"{label}.{key} is declared NOT NULL and cannot be removed (not-null constraint)")
  | none => rewriteNode row n n.labels (n.properties.erase key)

def applyRemoveOp (row : Row) : RemoveOp → ExecM Row
  | .property targetAlias key =>
    match row targetAlias with
    | some (.node n) => removeNodeProperty row n key
    | some (.rel r) => rewriteRel row r (r.properties.erase key)
    | other => throw (.runtime
        s!"REMOVE target `{targetAlias}` must be a Node or Relationship, got {L.debugBinding other}")
  | .labels targetAlias labels =>
    match row targetAlias with
    | some (.node n) => rewriteNode row n (n.labels.filter fun l => l∉labels) n.properties
    | other =>
      throw (.runtime s!"REMOVE {targetAlias}:Label target must be a Node, got {L.debugBinding other}")

def applyRemove (row : Row) (op : RemoveOp) : ExecM Row := do
  let row ← refreshStagedWriteTarget row op.targetAlias
  applyRemoveOp L row op

def applyRemoves (items : List RemoveOp) (row : Row) : ExecM Row := items.foldlM (applyRemove L) row

def incidentAmong (node : NodeId) : List String → ExecM (Option String)
  | [] => pure none
  | edgeType::edgeTypes => do
    let go ← ask .checkDeadline
    orFail go
    let snap ← ask .readOverlay
    let graph ← orFail snap
    if graph.outEdges edgeType node++graph.inEdges edgeType node=[] then incidentAmong node edgeTypes
    else pure (some edgeType)

def incidentEdgeType (node : NodeId) : ExecM (Option String) := do
  let w ← ask .session
  incidentAmong node w.observedEdgeTypes

def detachEdgeType (node : NodeId) (edgeType : String) : ExecM Unit := do
  let go ← ask .checkDeadline
  orFail go
  let snap ← ask .readOverlay
  let graph ← orFail snap
  (graph.outEdges edgeType node++graph.inEdges edgeType node).forM fun key => do
    let go ← ask .checkDeadline
    orFail go
    let done ← ask (.tombstoneEdge key)
    orFail done

def detachIncidentEdges (node : NodeId) : ExecM Unit := do
  let w ← ask .session
  w.observedEdgeTypes.forM (detachEdgeType node)

/-- Deleting a connected node without DETACH is an error, never a silent commit of dangling edges. -/
def rejectConnected (node : NodeId) : ExecM Unit := do
  match ← incidentEdgeType node with
  | some edgeType => throw (.constraint (s!"cannot DELETE a node that still has relationships (found {edgeType}); " ++
      "use DETACH DELETE to remove the node and its relationships"))
  | none => pure ()

def deleteNode (detach : Bool) (node : NodeId) : ExecM Unit := do
  if detach then detachIncidentEdges node else rejectConnected node
  let done ← ask (.tombstoneNode node)
  orFail done

def deleteValue (detach : Bool) : RuntimeValue → ExecM Unit
  | .node n => deleteNode detach n.id
  | .rel r => do
    let done ← ask (.tombstoneEdge ⟨r.edgeType,r.src,r.dst⟩)
    orFail done
  | .null => pure ()
  | other => throw (.runtime s!"DELETE target must be a Node, Relationship or NULL, got {other.typeName}")

def applyDelete (targets : List Expr) (detach : Bool) (row : Row) : ExecM Unit :=
  targets.forM fun target => do
    let v ← orFail (L.evaluate target row)
    deleteValue detach v

/-- The matches are read, with whatever was prefetched for the batch. -/
def applyMerge (pattern : List (CreateElement Expr)) (onMatchSets onCreateSets : List (SetOp Expr)) (row : Row) :
    ExecM (List Row) := do
  let found ← ask (.read "MergeMatches" [row])
  match ← orFail found with
  | [] => do
    let created ← applyCreate L pattern row
    let created ← applySets L onCreateSets created
    pure [created]
  | rows => rows.mapM' (applySets L onMatchSets)

end NamiDB.Query
