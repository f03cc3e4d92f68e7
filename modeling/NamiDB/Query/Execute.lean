import NamiDB.Query.Write

/-! Whole statements: the plan walked with its updating clauses, the two bounded paths for correlated updates, and
the ways the server runs a statement. -/
namespace NamiDB.Query
open Storage Lib

/-- `delegate` is a subtree that only reads, and `derive` a reading operator over an input that may write: both
are known by their name only. `apply` is a CALL subquery whose body writes. -/
inductive LogicalPlan (Expr : Type) where
  | empty
  | argument
  | delegate (operator : String)
  | nodeScan (label binding : String)
  | create (input : LogicalPlan Expr) (elements : List (CreateElement Expr))
  | set (input : LogicalPlan Expr) (items : List (SetOp Expr))
  | remove (input : LogicalPlan Expr) (items : List RemoveOp)
  | delete (input : LogicalPlan Expr) (targets : List Expr) (detach : Bool)
  | merge (input : LogicalPlan Expr) (pattern : List (CreateElement Expr))
      (onMatchSets onCreateSets : List (SetOp Expr))
  | foreach (input : LogicalPlan Expr) (loopVar : String) (list : Expr) (body : LogicalPlan Expr)
  | apply (input subplan : LogicalPlan Expr)
  | derive (input : LogicalPlan Expr) (operator : String)
  | nodeByPropertyValue (input : LogicalPlan Expr) (label binding property : String) (value : Expr) (multi : Bool)
  | filter (input : LogicalPlan Expr) (predicate : Expr)
  | unwind (input : LogicalPlan Expr) (list : Expr) (binding : String)
  | distinct (input : LogicalPlan Expr)
  | union (left right : LogicalPlan Expr) (all : Bool)
  | crossProduct (left right : LogicalPlan Expr)
  | discardResult (input : LogicalPlan Expr)

def LogicalPlan.operatorName {Expr : Type} : LogicalPlan Expr → String
  | .empty => "Empty"
  | .argument => "Argument"
  | .delegate operator => operator
  | .nodeScan _ _ => "NodeScan"
  | .create _ _ => "Create"
  | .set _ _ => "Set"
  | .remove _ _ => "Remove"
  | .delete _ _ _ => "Delete"
  | .merge _ _ _ _ => "Merge"
  | .foreach _ _ _ _ => "Foreach"
  | .apply _ _ => "Apply"
  | .derive _ operator => operator
  | .nodeByPropertyValue _ _ _ _ _ _ => "NodeByPropertyValue"
  | .filter _ _ => "Filter"
  | .unwind _ _ _ => "Unwind"
  | .distinct _ => "Distinct"
  | .union _ _ _ => "Union"
  | .crossProduct _ _ => "CrossProduct"
  | .discardResult _ => "DiscardResult"

variable {Expr : Type} (L : Language Expr)

def checkDeadline : ExecM Unit := do
  let go ← ask .checkDeadline
  orFail go

def readRows (operator : String) (input : List Row) : ExecM (List Row) := do
  let found ← ask (.read operator input)
  orFail found

/-- Applies a clause row by row; the terminal operator of a discarded result keeps no rows. -/
def eachRow (clause : Row → ExecM Row) (retainOutput : Bool) (rows : List Row) : ExecM (List Row) := do
  let out ← rows.mapM' fun row => do
    checkDeadline
    clause row
  pure (if retainOutput then out else [])

def deleteRow (targets : List Expr) (detach : Bool) (row : Row) : ExecM Row := do
  applyDelete L targets detach row
  pure row

def mergeRows (pattern : List (CreateElement Expr)) (onMatchSets onCreateSets : List (SetOp Expr))
    (retainOutput : Bool) (rows : List Row) : ExecM (List Row) := do
  let out ← rows.mapM' fun row => do
    checkDeadline
    applyMerge L pattern onMatchSets onCreateSets row
  pure (if retainOutput then out.flatten else [])

/-- Bindings of the incoming row are carried from one iteration to the next, the body's own are not. -/
def foreachIterations (loopVar : String) (items : List RuntimeValue) (body : Row → ExecM (List Row)) (row : Row) :
    ExecM Row :=
  items.foldlM (fun carry item => do
    checkDeadline
    let out ← body (carry.set loopVar item)
    pure (match out.getLast? with
      | some last => carry.carryOver row last
      | none => carry)) row

def executeForeachRow (loopVar : String) (list : Expr) (body : Row → ExecM (List Row)) (row : Row) : ExecM Unit := do
  checkDeadline
  match ← orFail (L.evaluate list row) with
  | .list items => do
    let _ ← foreachIterations loopVar items body row
    pure ()
  | .null => pure ()
  | v => throw (.runtime s!"FOREACH requires a list; got {v.typeName}")

/-- The body of a FOREACH or of a writing subquery, on one seed row. -/
def execForeachBody : LogicalPlan Expr → Bool → Row → ExecM (List Row)
  | .empty, retainOutput, seed => pure (if retainOutput then [seed] else [])
  | .argument, retainOutput, seed => pure (if retainOutput then [seed] else [])
  | .create input elements, retainOutput, seed => do
    let rows ← execForeachBody input true seed
    eachRow (applyCreate L elements) retainOutput rows
  | .set input items, retainOutput, seed => do
    let rows ← execForeachBody input true seed
    eachRow (applySets L items) retainOutput rows
  | .remove input items, retainOutput, seed => do
    let rows ← execForeachBody input true seed
    eachRow (applyRemoves L items) retainOutput rows
  | .delete input targets detach, retainOutput, seed => do
    let rows ← execForeachBody input true seed
    eachRow (deleteRow L targets detach) retainOutput rows
  | .merge input pattern onMatchSets onCreateSets, retainOutput, seed => do
    let rows ← execForeachBody input true seed
    mergeRows L pattern onMatchSets onCreateSets retainOutput rows
  | .foreach input loopVar list body, retainOutput, seed => do
    let rows ← execForeachBody input true seed
    rows.forM (executeForeachRow L loopVar list (execForeachBody body true))
    pure (if retainOutput then rows else [])
  | other, _, _ => throw (.runtime s!"operator `{other.operatorName}` is not allowed in a FOREACH body")

/-- Property updates of the matched node that leave its lookup key alone. -/
def correlatedSetsPreserveLookupIdentity (items : List (SetOp Expr)) (matched lookupProperty : String) : Bool :=
  items.all fun
    | .property targetAlias key _ => targetAlias=matched&&key != lookupProperty
    | _ => false

/-- The rows of a parameter list, with the lookup key of each; nothing when the shape does not fit. `nullable`
says whether a null key is a miss. -/
def lookupKeys (nullable : Bool) (value : Expr) (unwindAlias : String) :
    List RuntimeValue → Except ExecError (Option (List (RuntimeValue × Option String)))
  | [] => .ok (some [])
  | row::rows => do
    match ← L.evaluate value (Row.new.set unwindAlias row) with
    | .string key =>
      let rest ← lookupKeys nullable value unwindAlias rows
      pure (rest.map fun rest => (row,some key)::rest)
    | .null =>
      if nullable then
        let rest ← lookupKeys nullable value unwindAlias rows
        pure (rest.map fun rest => (row,none)::rest)
      else pure none
    | _ => pure none

/-- The nodes that this statement has already staged, by their key. -/
abbrev LocalOverlay := AList fun _ : String => NodeId

/-- A key that the statement has touched is resolved to its staged node. -/
def localCandidate (lost : String) (touched : LocalOverlay) (key : String) (committed : Option NodeValue) :
    ExecM (Option NodeValue) :=
  match touched.lookup key with
  | none => pure committed
  | some id => do
    let w ← ask .session
    match w.stagedNode id with
    | .upsert view => pure (some view)
    | .tombstone => pure none
    | .untouched => throw (.runtime lost)

/-- Only a node that was really staged shadows the committed one. -/
def noteStaged (touched : LocalOverlay) (key : String) (id : NodeId) : ExecM LocalOverlay := do
  let w ← ask .session
  pure (match w.stagedNode id with
    | .untouched => touched
    | _ => touched.insert key id)

def setCandidate (items : List (SetOp Expr)) (binding unwindAlias : String) (touched : LocalOverlay)
    (entry : (RuntimeValue × Option String) × Option NodeValue) : ExecM LocalOverlay := do
  checkDeadline
  match entry.2 with
  | none => pure touched
  | some node =>
    let _ ← applySets L items ((Row.new.set unwindAlias entry.1.1).set binding (.node node))
    match entry.1.2 with
    | some key => noteStaged touched key node.id
    | none => pure touched

/-- The answers of a batch, put back beside the rows they belong to. -/
def alignCandidates : List (RuntimeValue × Option String) → List (Option NodeValue) →
    List ((RuntimeValue × Option String) × Option NodeValue)
  | [], _ => []
  | (row,none)::rows, found => ((row,none),none)::alignCandidates rows found
  | (row,some key)::rows, found => ((row,some key),found.head?.join)::alignCandidates rows found.tail

def resolveEntry (touched : LocalOverlay) (entry : (RuntimeValue × Option String) × Option NodeValue) :
    ExecM ((RuntimeValue × Option String) × Option NodeValue) :=
  match entry.1.2 with
  | none => pure (entry.1,none)
  | some key => do
    let node ← localCandidate "correlated SET local overlay lost its staged node" touched key entry.2
    pure (entry.1,node)

def setChunk (items : List (SetOp Expr)) (label binding property unwindAlias : String) (touched : LocalOverlay)
    (chunk : List (RuntimeValue × Option String)) : ExecM LocalOverlay := do
  checkDeadline
  let keys := chunk.filterMap (·.2)
  let answer ← ask (.candidates label property keys)
  let found ← orFail answer
  if found.length≠keys.length then
    throw (.runtime s!"batch property lookup returned {found.length} results for {keys.length} values")
  else do
    let resolved ← (alignCandidates chunk found).mapM' (resolveEntry touched)
    resolved.foldlM (setCandidate L items binding unwindAlias) touched

/-- `UNWIND $rows AS row MATCH (a:Label {key: row.key}) SET a.p = …` as the end of a statement on a clean batch;
`false` leaves it to the general path. -/
def executeDiscardedCorrelatedNodeSet (items : List (SetOp Expr)) : LogicalPlan Expr → ExecM Bool
  | .nodeByPropertyValue (.unwind .empty list unwindAlias) label binding property value false =>
    if !L.isDirectPropertyOf value unwindAlias then pure false
    else match L.parameter list with
      | some (.list rows) => do
        let w ← ask .session
        if w.hasStagedNodeMutations||items.isEmpty ||
            !correlatedSetsPreserveLookupIdentity items binding property then pure false
        else match ← orFail (lookupKeys L true value unwindAlias rows) with
          | none => pure false
          | some entries => do
            let _ ← (entries.toChunks L.chunkRows).foldlM
              (setChunk L items label binding property unwindAlias) ∅
            pure true
      | _ => pure false
  | _ => pure false

/-- The label under which the pattern's one property is unique. -/
def mergeLookupLabel (schema : Schema) (labels : List String) (property : String) : Option String :=
  labels.find? fun label => (schema.label label).any (fun d => d.isUnique property) ||
    schema.constraints.any fun c => c.label=label&&c.properties=[property]

def nodeMatches (labels : List String) (property key : String) (node : NodeValue) : Bool :=
  labels.all (fun l => decide (l∈node.labels)) &&
    (match node.properties.lookup property with
      | some (.str s) => s=key
      | _ => false)

def matchOrCreate (pattern : List (CreateElement Expr)) (onMatchSets onCreateSets : List (SetOp Expr))
    (binding : String) (row : Row) : Option NodeValue → ExecM Row
  | some node => applySets L onMatchSets (row.set binding (.node node))
  | none => do
    let created ← applyCreate L pattern row
    applySets L onCreateSets created

def mergeCandidate (pattern : List (CreateElement Expr)) (onMatchSets onCreateSets trailingSets : List (SetOp Expr))
    (labels : List String) (binding property unwindAlias : String) (touched : LocalOverlay)
    (entry : (RuntimeValue × Option String) × Option NodeValue) : ExecM LocalOverlay := do
  checkDeadline
  let key := entry.1.2.getD ""
  let candidate ← localCandidate "correlated MERGE local overlay lost its staged node" touched key entry.2
  let row := Row.new.set unwindAlias entry.1.1
  let merged ← matchOrCreate L pattern onMatchSets onCreateSets binding row
    (candidate.filter (nodeMatches labels property key))
  let merged ← applySets L trailingSets merged
  match merged binding with
  | some (.node node) => noteStaged touched key node.id
  | _ => throw (.runtime s!"correlated MERGE did not bind node `{binding}`")

/-- Keys touched by an earlier chunk are not looked up again. -/
def mergeChunk (pattern : List (CreateElement Expr)) (onMatchSets onCreateSets trailingSets : List (SetOp Expr))
    (labels : List String) (label binding property unwindAlias : String) (touched : LocalOverlay)
    (chunk : List (RuntimeValue × Option String)) : ExecM LocalOverlay := do
  checkDeadline
  let asked := chunk.map fun e => (e.1,e.2.filter fun key => (touched.lookup key).isNone)
  let keys := asked.filterMap (·.2)
  let answer ← ask (.candidates label property keys)
  let found ← orFail answer
  if found.length≠keys.length then
    throw (.runtime s!"batch MERGE property lookup returned {found.length} results for {keys.length} values")
  else
    (chunk.zip ((alignCandidates asked found).map (·.2))).foldlM
      (mergeCandidate L pattern onMatchSets onCreateSets trailingSets labels binding property unwindAlias) touched

/-- `UNWIND $rows AS row MERGE (a:Label {key: row.key}) …` as the end of a statement on a clean batch. -/
def executeDiscardedCorrelatedSingleNodeMerge (pattern : List (CreateElement Expr))
    (onMatchSets onCreateSets trailingSets : List (SetOp Expr)) : LogicalPlan Expr → ExecM Bool
  | .unwind .empty list unwindAlias => do
    let w ← ask .session
    match pattern, L.parameter list with
    | [.node binding labels [(property,value)] none], some (.list rows) =>
      match mergeLookupLabel w.schema labels property with
      | some label =>
        if w.hasStagedNodeMutations||property = "_id" || !L.isDirectPropertyOf value unwindAlias ||
            !correlatedSetsPreserveLookupIdentity onMatchSets binding property ||
            !correlatedSetsPreserveLookupIdentity onCreateSets binding property ||
            !correlatedSetsPreserveLookupIdentity trailingSets binding property then pure false
        else match ← orFail (lookupKeys L false value unwindAlias rows) with
          | none => pure false
          | some entries => do
            let _ ← (entries.toChunks L.chunkRows).foldlM
              (mergeChunk L pattern onMatchSets onCreateSets trailingSets labels label binding property unwindAlias) ∅
            pure true
      | none => pure false
    | _, _ => pure false
  | _ => pure false

/-- The MERGE below a discarded SET may take the bounded path together with it. -/
def executeDiscardedMergeBelow (items : List (SetOp Expr)) : LogicalPlan Expr → ExecM Bool
  | .merge input pattern onMatchSets onCreateSets =>
    executeDiscardedCorrelatedSingleNodeMerge L pattern onMatchSets onCreateSets items input
  | _ => pure false

def tryCorrelatedSet (items : List (SetOp Expr)) (input : LogicalPlan Expr) (retainOutput : Bool) : ExecM Bool :=
  if retainOutput then pure false
  else do
    let handled ← executeDiscardedCorrelatedNodeSet L items input
    if handled then pure true else executeDiscardedMergeBelow L items input

def tryCorrelatedMerge (pattern : List (CreateElement Expr)) (onMatchSets onCreateSets : List (SetOp Expr))
    (input : LogicalPlan Expr) (retainOutput : Bool) : ExecM Bool :=
  if retainOutput then pure false
  else executeDiscardedCorrelatedSingleNodeMerge L pattern onMatchSets onCreateSets [] input

def filterRow (predicate : Expr) (row : Row) : ExecM (List Row) := do
  let v ← orFail (L.evaluate predicate row)
  pure (if v.asBool=some true then [row] else [])

def unwindRow (list : Expr) (binding : String) (row : Row) : ExecM (List Row) := do
  match ← orFail (L.evaluate list row) with
  | .list items => pure (items.map (row.set binding))
  | .null => pure []
  | v => throw (.runtime s!"UNWIND requires a list; got {v.typeName}")

def scanRows (label binding : String) : ExecM (List Row) := do
  let snap ← ask .readOverlay
  let graph ← orFail snap
  pure ((graph.scanNodes label).map fun n => Row.new.set binding (.node n))

/-- `retainOutput` is false only for the operator whose rows nobody reads. -/
def executeWriteInner : LogicalPlan Expr → Bool → ExecM (List Row)
  | .empty, _ => pure [Row.new]
  | .argument, _ => readRows "Argument" []
  | .delegate operator, _ => readRows operator []
  | .nodeScan label binding, _ => scanRows label binding
  | .create input elements, retainOutput => do
    let rows ← executeWriteInner input true
    eachRow (applyCreate L elements) retainOutput rows
  | .set input items, retainOutput => do
    let handled ← tryCorrelatedSet L items input retainOutput
    if handled then pure []
    else do
      let rows ← executeWriteInner input true
      eachRow (applySets L items) retainOutput rows
  | .remove input items, retainOutput => do
    let rows ← executeWriteInner input true
    eachRow (applyRemoves L items) retainOutput rows
  | .delete input targets detach, retainOutput => do
    let rows ← executeWriteInner input true
    eachRow (deleteRow L targets detach) retainOutput rows
  | .merge input pattern onMatchSets onCreateSets, retainOutput => do
    let handled ← tryCorrelatedMerge L pattern onMatchSets onCreateSets input retainOutput
    if handled then pure []
    else do
      let rows ← executeWriteInner input true
      let _ ← readRows "PrepareMergeBatch" rows
      mergeRows L pattern onMatchSets onCreateSets retainOutput rows
  | .foreach input loopVar list body, retainOutput => do
    let rows ← executeWriteInner input true
    rows.forM (executeForeachRow L loopVar list (execForeachBody L body true))
    pure (if retainOutput then rows else [])
  | .apply input subplan, retainOutput => do
    let rows ← executeWriteInner input true
    let out ← rows.mapM' fun row => do
      checkDeadline
      let sub ← execForeachBody L subplan retainOutput row
      pure (sub.map row.extend)
    pure (if retainOutput then out.flatten else [])
  | .derive input operator, retainOutput => do
    let rows ← executeWriteInner input true
    let out ← readRows operator rows
    pure (if retainOutput then out else [])
  | .nodeByPropertyValue input _ _ _ _ _, _ => do
    let rows ← executeWriteInner input true
    readRows "NodeByPropertyValue" rows
  | .filter input predicate, retainOutput => do
    let rows ← executeWriteInner input true
    let out ← rows.mapM' (filterRow L predicate)
    pure (if retainOutput then out.flatten else [])
  | .unwind input list binding, retainOutput => do
    let rows ← executeWriteInner input true
    let out ← rows.mapM' (unwindRow L list binding)
    pure (if retainOutput then out.flatten else [])
  | .distinct input, retainOutput => do
    let rows ← executeWriteInner input retainOutput
    if retainOutput then readRows "Distinct" rows else pure []
  | .union left right all, retainOutput => do
    let l ← executeWriteInner left retainOutput
    let r ← executeWriteInner right retainOutput
    if !retainOutput then pure []
    else if all then pure (l++r)
    else readRows "Distinct" (l++r)
  | .crossProduct left right, retainOutput => do
    let l ← executeWriteInner left retainOutput
    let r ← executeWriteInner right retainOutput
    pure (if retainOutput then l.flatMap fun row => r.map row.extend else [])
  | .discardResult input, _ => do
    let _ ← executeWriteInner input false
    pure []

def executeWriteStaged (plan : LogicalPlan Expr) : ExecM (List Row) := executeWriteInner L plan true

/-- A fenced or poisoned session is opened again in place; other errors leave it as it is. -/
def recoverAfterWriteError : ExecM Unit := do
  let w ← ask .session
  if w.poisoned then
    let _ ← ask .reopen
    pure ()

/-- The commit of whatever is staged; a failed batch is dropped as a unit. -/
def commitOrDiscard : ExecM Unit := do
  match ← ask .commitBatch with
  | .ok _ => pure ()
  | .error _ => do
    ask .discardBatch
    recoverAfterWriteError

/-- What the server does with the writer while it holds its lock. `grouped` stages in a request scope for the
committer, `committed` is a statement with its own commit, `transaction` an explicit transaction that ends with a
COMMIT or a ROLLBACK, `commitGroup` the committer's pass and `reopen` a recovery. -/
inductive Deed (Expr : Type) where
  | grouped (plan : LogicalPlan Expr)
  | committed (plan : LogicalPlan Expr)
  | transaction (plans : List (LogicalPlan Expr)) (commit : Bool)
  | commitGroup
  | reopen

def runGrouped (plan : LogicalPlan Expr) : ExecM Unit := do
  ask .beginStagedRequest
  match ← attempt (executeWriteStaged L plan) with
  | .ok _ => ask .commitStagedRequest
  | .error _ => do
    ask .rollbackStagedRequest
    recoverAfterWriteError

def executeWrite (plan : LogicalPlan Expr) : ExecM Unit := do
  match ← attempt (executeWriteStaged L plan) with
  | .ok _ => commitOrDiscard
  | .error _ => do
    ask .discardBatch
    recoverAfterWriteError

def runTransaction : List (LogicalPlan Expr) → Bool → ExecM Unit
  | [], true => commitOrDiscard
  | [], false => ask .discardBatch
  | plan::plans, commit => do
    match ← attempt (executeWriteStaged L plan) with
    | .ok _ => runTransaction plans commit
    | .error _ => ask .discardBatch

def perform : Deed Expr → ExecM Unit
  | .grouped plan => runGrouped L plan
  | .committed plan => executeWrite L plan
  | .transaction plans commit => do
    commitOrDiscard
    runTransaction L plans commit
  | .commitGroup => commitOrDiscard
  | .reopen => do
    let _ ← ask .reopen
    pure ()

def serve (deeds : List (Deed Expr)) : ExecM Unit := deeds.forM (perform L)

end NamiDB.Query
