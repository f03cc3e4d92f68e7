import NamiDB.Cypher.EndpointDistinct
import NamiDB.Cypher.Shortest
import NamiDB.Cypher.Sorting
import NamiDB.Lib.Budget

/-! The executor on flat rows: every operator runs on all rows of its input. -/
namespace NamiDB.Cypher
open Query Storage Lib

/-- What the executor calls and takes as it is: the reductions of numbers, the operators that drive reads of their
own, and which properties of a label have a String index that covers all its nodes. -/
structure Callees where
  sum : List RuntimeValue → Except EvalError RuntimeValue
  average : List RuntimeValue → Except EvalError RuntimeValue
  deviation : Bool → List RuntimeValue → Except EvalError RuntimeValue
  percentile : Bool → RuntimeValue → List RuntimeValue → Except EvalError RuntimeValue
  leaf : Base → Params → LogicalPlan → Except EvalError (List Row)
  stringIndexed : String → String → Bool

def Callees.none : Callees where
  sum _ := .error "sum"
  average _ := .error "avg"
  deviation _ _ := .error "stdev"
  percentile _ _ _ := .error "percentile"
  leaf _ _ _ := .error "leaf"
  stringIndexed _ _ := false

variable (L : Scalars) (C : Callees) (params : Params) (base : Base)

def dedupValues : List (List Char) → List RuntimeValue → List RuntimeValue
  | _, [] => []
  | seen, v::vs =>
    if seen.contains (fingerprint L.ids v) then dedupValues seen vs
    else v::dedupValues (fingerprint L.ids v::seen) vs

def collectNonNull (arg : Expression) (distinct : Bool) (rows : List Row) : Except EvalError (List RuntimeValue) := do
  let values ← gather (fun row => do
    let v ← evalRow L params arg row
    pure (if isNullValue v then [] else [v])) rows
  pure (if distinct then dedupValues L [] values else values)

def minBy (vs : List RuntimeValue) : RuntimeValue :=
  match vs with
  | [] => .null
  | v::vs => vs.foldl (fun best v => if L.orderForSort false best v = .gt then v else best) v

def maxBy (vs : List RuntimeValue) : RuntimeValue :=
  match vs with
  | [] => .null
  | v::vs => vs.foldl (fun best v => if L.orderForSort false best v = .gt then best else v) v

def aggregateOver (rows : List Row) : AggregateExpr → Except EvalError RuntimeValue
  | .count none _ => .ok (.integer rows.length)
  | .count (some arg) distinct => do
    let values ← collectNonNull L params arg distinct rows
    pure (.integer values.length)
  | .sum arg distinct => do
    let values ← collectNonNull L params arg distinct rows
    C.sum values
  | .avg arg distinct => do
    let values ← collectNonNull L params arg distinct rows
    if values.isEmpty then pure .null else C.average values
  | .min arg => do
    let values ← collectNonNull L params arg false rows
    pure (minBy L values)
  | .max arg => do
    let values ← collectNonNull L params arg false rows
    pure (maxBy L values)
  | .collect arg distinct => do
    let values ← collectNonNull L params arg distinct rows
    pure (.list values)
  | .stdev arg distinct population => do
    let values ← collectNonNull L params arg distinct rows
    C.deviation population values
  | .percentile arg fraction continuous => do
    let values ← collectNonNull L params arg false rows
    if values.isEmpty then pure .null
    else
      let p ← evalRow L params fraction (rows.headD Row.new)
      C.percentile continuous p values

structure Group where
  key : List Char
  values : List RuntimeValue
  rows : List Row

def addToGroup (key : List Char) (values : List RuntimeValue) (row : Row) : List Group → List Group
  | [] => [⟨key,values,[row]⟩]
  | g::groups =>
    if key<g.key then ⟨key,values,[row]⟩::g::groups
    else if key=g.key then { g with rows := g.rows++[row] }::groups
    else g::addToGroup key values row groups

def groupKey (values : List RuntimeValue) : List Char := values.flatMap fun v => fingerprint L.ids v++['|']

def groupRows (groupBy : List (Expression × String)) : List Row → List Group → Except EvalError (List Group)
  | [], groups => .ok groups
  | row::rows, groups => do
    let values ← evaluateAll L params (groupBy.map Prod.fst) row.get
    groupRows groupBy rows (addToGroup (groupKey L values) values row groups)

def setAggregates (rows : List Row) (aggregations : List (String × AggregateExpr)) (new : Row) :
    Except EvalError Row :=
  aggregations.foldlM (fun new a => do
    let v ← aggregateOver L C params rows a.2
    pure (new.set a.1 v)) new

def groupRow (groupBy : List (Expression × String)) (aggregations : List (String × AggregateExpr)) (g : Group) :
    Except EvalError Row :=
  setAggregates L C params g.rows aggregations
    ((groupBy.zip g.values).foldl (fun new e => new.set e.1.2 e.2) Row.new)

/-- Without rows and without keys there is one group, the empty one. -/
def executeAggregate (groupBy : List (Expression × String)) (aggregations : List (String × AggregateExpr))
    (rows : List Row) : Except EvalError (List Row) := do
  let groups ← groupRows L params groupBy rows []
  if groups.isEmpty&&groupBy.isEmpty then
    let row ← setAggregates L C params [] aggregations Row.new
    pure [row]
  else gather (fun g => do
    let row ← groupRow L C params groupBy aggregations g
    pure [row]) groups

/-- A count of all nodes of a scan is read from the metadata. -/
def tryMetadataNodeCount (input : LogicalPlan) (groupBy : List (Expression × String))
    (aggregations : List (String × AggregateExpr)) : Option Row :=
  match input, groupBy, aggregations with
  | .nodeScan label binding [] _, [], [(output,.count arg _)] =>
    let counted := match arg with
      | none => true
      | some (.var name) => name=binding
      | some _ => false
    if counted then
      some (Row.new.set output (.integer (scanNodeViews base.graph label [] none).length))
    else none
  | _, _, _ => none

def argumentRow (bindings : List String) (outer : Row) : Row :=
  bindings.foldl (fun row name => match outer.get name with
    | some v => row.set name v
    | none => row) Row.new

def bindNodes (binding : String) (row : Row) (nodes : List NodeValue) : List Row :=
  nodes.map fun n => row.set binding (.node n)

def nodeByIdRow (label : Option String) (binding : String) (id : Expression) (row : Row) :
    Except EvalError (List Row) := do
  let v ← evalRow L params id row
  pure (bindNodes binding row (((seekNodeId L v).bind (lookupNode base.graph (label.getD ""))).toList))

/-- Without `multi` the property is unique, and the first match is taken. -/
def nodeByPropertyValueRow (label binding property : String) (value : Expression) (multi : Bool)
    (room : Option Nat) (row : Row) : Except EvalError (List Row) := do
  let v ← evalRow L params value row
  let nodes := lookupNodesByProperty base.graph label property v
  pure (bindNodes binding row (match (if multi then room else some 1) with
    | some n => nodes.take n
    | none => nodes))

def nodeByPropertyTupleRow (label binding : String) (properties : List String) (values : List Expression)
    (row : Row) : Except EvalError (List Row) := do
  let vs ← evaluateAll L params values row.get
  pure (bindNodes binding row (lookupNodesByPropertyTuple base.graph label properties vs))

def unwindRow (list : Expression) (binding : String) (row : Row) : Except EvalError (List Row) := do
  match ← evalRow L params list row with
  | .list items => pure (items.map fun item => row.set binding item)
  | .null => pure []
  | v => throw s!"UNWIND requires a list; got {v.typeName}"

/-- A row without a match is kept once when the subplan is optional. -/
def applyRow (optional : Option (List String)) (row : Row) (subRows : List Row) : List Row :=
  if subRows.isEmpty then
    match optional with
    | some pad => [pad.foldl (fun row name => row.set name .null) row]
    | none => []
  else subRows.map row.extend

/-- The expand with its bounds, row by row. A search for distinct endpoints remembers what it has returned. -/
def expandUpTo (hop : Expand) (min max : Nat) (endpointBfs : Bool) (window : Nat) :
    Option Nat → List NodeId → List Row → Except EvalError (List Row)
  | _, _, [] => .ok []
  | cap, emitted, row::rows =>
    if cap=some 0 then .ok []
    else do
      let (emitted,out) ← expandRowUpTo base hop min max endpointBfs window cap emitted row
      let rest ← expandUpTo hop min max endpointBfs window (cap.map (·-out.length)) emitted rows
      pure (out++rest)

def firstWindow (cap : Option Nat) : Nat := Nat.max (4*cap.getD 0) 512

def expandRows (hop : Expand) (cap : Option Nat) (rows : List Row) : Except EvalError (List Row) := do
  let (min,max) := (← resolveLength params hop.length).getD (1,1)
  if hop.shortest = .none then expandUpTo base hop min (clampHopMax max) false (firstWindow cap) cap [] rows
  else executeExpandShortest base hop min (clampHopMax max) cap rows

/-- The expand over its seeds. Below a limit the seeds of a scan come in rounds, each four times as far as the
one before, and what has been read is not read again. -/
def expandSeeds (hop : Expand) (scanned : Bool) (cap : Option Nat) (rows : List Row) : Except EvalError (List Row) :=
  match cap with
  | some cap =>
    if scanned then
      inRounds (fun cap => expandRows params base hop (some cap)) (rows.length+1) (Nat.max cap 64) 0 cap rows
    else expandRows params base hop (some cap) rows
  | none => expandRows params base hop none rows

def residualMatches (residual : Expression) (row : Row) : List Row → Except EvalError Bool
  | [] => .ok false
  | inner::rest => do
    let v ← evalRow L params residual (inner.extend row)
    if v.asBool=some true then pure true else residualMatches residual row rest

def semiJoinMatches (on : List JoinKey) (residual : Option Expression) (table : Table (List (List Char)) Row)
    (row : Row) : Except EvalError Bool := do
  match ← joinKey L params (on.map JoinKey.probeSide) row, residual with
  | none, _ => pure false
  | some k, none => pure !(table.find k).isEmpty
  | some k, some e => residualMatches L params e row (table.find k)

def hashSemiJoin (on : List JoinKey) (negated : Bool) (residual : Option Expression) (outer inner : List Row) :
    Except EvalError (List Row) := do
  let table ← buildTable L params (on.map JoinKey.buildSide) inner []
  gather (fun row => do
    let isMatch ← semiJoinMatches L params on residual table row
    pure (if isMatch != negated then [row] else [])) outer

def patternListRow (projection : Expression) (binding : String) (row : Row) (inner : List Row) :
    Except EvalError (List Row) := do
  let values ← gather (fun row => do
    let v ← evalRow L params projection row
    pure [v]) inner
  pure [row.set binding (.list values)]

/-- `u64::MAX`, which stands for no limit. -/
def noLimit : Nat := 2^64-1

def resolveRowCount (what : String) : RowCount → Except EvalError Nat
  | .const n => .ok n
  | .param name =>
    match params name with
    | some (.integer n) =>
      if 0≤n then .ok n.toNat else .error s!"{what} parameter `${name}` must be non-negative"
    | some v => .error s!"{what} parameter `${name}` must be an integer, got {v.typeName}"
    | none => .error s!"{what} parameter `${name}` not provided"

/-- The rows that are needed below a limit, if there is one and no order. -/
def rowBudget (keys : List OrderKey) (skip limit : Nat) : Option Nat :=
  if keys.isEmpty&&limit != noLimit then some (skip+limit) else none

/-- The rows in order. A window that ends before they do is taken from a heap. -/
def topRows (keys : List OrderKey) (skip limit : Nat) (rows : List Row) : Except EvalError (List Row) :=
  if !keys.isEmpty&&skip+limit<noLimit&&skip+limit<rows.length then
    boundedTopk L params keys (skip+limit) rows
  else orderRows L params keys rows

def rowWindow {α : Type*} (skip limit : Nat) (rows : List α) : List α :=
  if limit=noLimit then rows.drop skip else (rows.drop skip).take limit

/-- What an index of texts files for a node. -/
def indexedText (property : String) (n : NodeValue) : Option String :=
  match n.properties.lookup property with
  | some (.str s) => some s
  | _ => none

/-- The first nodes of a label by the text of a property, and by their ids where it is the same. Nothing where the
property has no index or the index too few nodes, since it does not show those without a text. -/
def orderedNodesByStringProperty (label property : String) (limit : Nat) : Option (List NodeValue) :=
  if limit=0 then some []
  else if C.stringIndexed label property then
    let nodes := (scanNodeViews base.graph (some label) [] none).filter fun n => (indexedText property n).isSome
    if nodes.length<limit then none
    else some ((nodes.mergeSort (leOf fun a b =>
      compare ((indexedText property a).getD "") ((indexedText property b).getD ""))).take limit)
  else none

def tryIndexedOrderedNodePrefix (input : LogicalPlan) (keys : List OrderKey) (bound : Nat) : Option (List Row) :=
  match input, keys with
  | .nodeScan (some label) binding [] _, [⟨.property (.var target) key,false⟩] =>
    if target=binding then (orderedNodesByStringProperty C base label key bound).map (bindNodes binding Row.new)
    else none
  | _, _ => none

def indexedRows (input : LogicalPlan) (keys : List OrderKey) (skip limit : Nat) : Option (List Row) :=
  if !keys.isEmpty&&limit != noLimit then tryIndexedOrderedNodePrefix C base input keys (skip+limit) else none

section

/-- Whether a plan reads its correlation row. The subplan of a nested apply gets a row of its own. -/
def readsOuterRow : LogicalPlan → Bool
  | .argument bindings => !bindings.isEmpty
  | .semiApply input _ _ | .apply input _ _ | .patternList input _ _ _ => readsOuterRow input
  | .empty | .nodeScan _ _ _ _ | .multiwayJoin _ | .edgeTypeCount _ _ | .vectorSearch _ _
  | .callProcedure _ _ _ _ => false
  | .nodeById input _ _ _ | .nodeByPropertyValue input _ _ _ _ _ | .nodeByPropertyTuple input _ _ _ _
  | .expand input _ | .filter input _ | .project input _ _ _ | .discardResult input | .aggregate input _ _
  | .topN input _ _ _ | .distinct input | .unwind input _ _ | .create input _ | .merge input _ _ _
  | .set input _ | .remove input _ | .delete input _ _ => readsOuterRow input
  | .union left right _ | .crossProduct left right | .hashJoin left right _ _ | .hashSemiJoin left right _ _ _
  | .foreach left _ _ right => readsOuterRow left||readsOuterRow right

def isNodeScan : LogicalPlan → Bool
  | .nodeScan _ _ _ _ => true
  | _ => false

/-- What lies below a DISTINCT projection that a search for endpoints may answer: an expand, its seeds and the
keys of a sort between them. -/
structure EndpointInput where
  hop : Expand
  keys : List OrderKey
  seeds : Except EvalError (List Row)

/-- A limit does not go through a sort. -/
def endpointRows (items : List ProjectionItem) (discardInputBindings : Bool) (cap : Option Nat) :
    Option EndpointInput → Except EvalError (Option (List Row))
  | none => .ok none
  | some i => do
    let cap := if i.keys.isEmpty then cap else none
    match ← endpointBounds params i.hop i.keys items with
    | none => return none
    | some (min,max) =>
      let expanded ← expandUpTo base i.hop min (clampHopMax max) true (firstWindow cap) cap [] (← i.seeds)
      return some (← distinctRows L params i.keys items discardInputBindings expanded)

def executeProject (items : List ProjectionItem) (distinct discardInputBindings : Bool) (cap : Option Nat)
    (endpoint : Option EndpointInput) (rows : Except EvalError (List Row)) : Except EvalError (List Row) :=
  if distinct then do
    match ← endpointRows L params base items discardInputBindings cap endpoint with
    | some rows => pure rows
    | none =>
      let rows ← rows
      let projected ← projectRows L params items discardInputBindings rows
      pure (dedupRows L [] projected)
  else do
    let rows ← rows
    projectRows L params items discardInputBindings rows

/-- The rows of a plan below a correlation row. With a cap only the first ones are asked for: operators whose
input in part gives their output in part pass it on, and more rows than that may come back. -/
def execute : LogicalPlan → Option Row → Option Nat → Except EvalError (List Row)
  | .empty, _, _ => .ok [Row.new]
  | .argument bindings, outer, _ =>
    match outer with
    | some outer => .ok [argumentRow bindings outer]
    | none => .error "Argument operator requires an outer row from a containing SemiApply / PatternList"
  | .nodeScan label binding predicates projection, _, cap =>
    let nodes := scanNodeViews base.graph label predicates projection
    .ok (bindNodes binding Row.new (match cap with
      | some cap => nodes.take cap
      | none => nodes))
  | .nodeById input label binding id, outer, _ => do
    let rows ← execute input outer none
    gather (nodeByIdRow L params base label binding id) rows
  | .nodeByPropertyValue input label binding property value multi, outer, cap => do
    let rows ← execute input outer none
    gatherUpTo (nodeByPropertyValueRow L params base label binding property value multi)
      (if multi then cap else none) rows
  | .nodeByPropertyTuple input label binding properties values, outer, _ => do
    let rows ← execute input outer none
    gather (nodeByPropertyTupleRow L params base label binding properties values) rows
  | .expand input hop, outer, cap => do
    let rows ← execute input outer none
    expandSeeds params base hop (isNodeScan input) cap rows
  | .filter input predicate, outer, _ => do
    let rows ← execute input outer none
    filterRows L params predicate rows
  | .project input items distinct discardInputBindings, outer, cap =>
    let endpoint := match input with
      | .expand input hop => some ⟨hop,[],execute input outer none⟩
      | .topN (.expand input hop) keys skip limit =>
        if skip = .const 0 ∧ limit = .const noLimit ∧ keys.isEmpty=false then
          some ⟨hop,keys,execute input outer none⟩
        else none
      | _ => none
    executeProject L params base items distinct discardInputBindings cap endpoint
      (execute input outer (if distinct then none else cap))
  | .discardResult input, outer, _ => do
    let _ ← execute input outer none
    pure []
  | .aggregate input groupBy aggregations, outer, _ =>
    match tryMetadataNodeCount base input groupBy aggregations with
    | some row => .ok [row]
    | none => do
      let rows ← execute input outer none
      executeAggregate L C params groupBy aggregations rows
  | .topN input keys skip limit, outer, _ => do
    let skip ← resolveRowCount params "SKIP" skip
    let limit ← resolveRowCount params "LIMIT" limit
    let rows ← (indexedRows C base input keys skip limit).elim (execute input outer (rowBudget keys skip limit)) .ok
    let rows ← topRows L params keys skip limit rows
    pure (rowWindow skip limit rows)
  | .distinct input, outer, _ => do
    let rows ← execute input outer none
    pure (dedupRows L [] rows)
  | .union left right all, outer, _ => do
    let l ← execute left outer none
    let r ← execute right outer none
    pure (if all then l++r else dedupRows L [] (l++r))
  | .unwind input list binding, outer, _ => do
    let rows ← execute input outer none
    gather (unwindRow L params list binding) rows
  | .crossProduct left right, outer, _ => do
    let l ← execute left outer none
    let r ← execute right outer none
    pure (crossProduct l r)
  | .hashJoin build probe on residual, outer, _ => do
    let b ← execute build outer none
    let p ← execute probe outer none
    hashJoin L params on residual b p
  | .hashSemiJoin left inner on negated residual, outer, _ => do
    let inner ← execute inner outer none
    let rows ← execute left outer none
    hashSemiJoin L params on negated residual rows inner
  | .semiApply input subplan negated, outer, _ => do
    let rows ← execute input outer none
    gather (fun row => do
      let subRows ← execute subplan (some row) none
      pure (if subRows.isEmpty==negated then [row] else [])) rows
  | .apply input subplan optional, outer, cap => do
    let cap := if optional.isSome then cap else none
    let rows ← execute input outer cap
    gatherUpTo (fun _ row => do
      let subRows ← execute subplan (some (if readsOuterRow subplan then row else Row.new)) none
      pure (applyRow optional row subRows)) cap rows
  | .patternList input subplan projection binding, outer, _ => do
    let rows ← execute input outer none
    gather (fun row => do
      let inner ← execute subplan (some row) none
      patternListRow L params projection binding row inner) rows
  | .create _ _, _, _ | .merge _ _ _ _, _, _ | .set _ _, _, _ | .remove _ _, _, _ | .delete _ _ _, _, _
  | .foreach _ _ _ _, _, _ =>
    .error "write operators require execute_write(plan, &mut WriterSession, params)"
  | .multiwayJoin _, _, _ =>
    .error "MultiwayJoin requires the factorised executor; set NAMIDB_FACTORIZE=1 (RFC-024)"
  | .edgeTypeCount edgeTypes output, _, _ =>
    .ok [Row.new.set output (.integer (edgeTypes.map fun t =>
      (base.graph.edges.keys.filter (·.edgeType=t)).length).sum)]
  | .vectorSearch binding scoreBinding, _, _ => C.leaf base params (.vectorSearch binding scoreBinding)
  | .callProcedure qualifier name args yieldItems, _, _ =>
    C.leaf base params (.callProcedure qualifier name args yieldItems)

/-- What a projection finds below it: nothing that a search for endpoints can use, or an expand. The match also
stands in the case of `execute` for a projection, where the recursion on the input has to be seen. -/
def endpointOf (outer : Option Row) : LogicalPlan → Option EndpointInput
  | .expand input hop => some ⟨hop,[],execute L C params base input outer none⟩
  | .topN (.expand input hop) keys skip limit =>
    if skip = .const 0 ∧ limit = .const noLimit ∧ keys.isEmpty=false then
      some ⟨hop,keys,execute L C params base input outer none⟩
    else none
  | _ => none

variable {L C params base}

def expandOne (base : Base) (hop : Expand) (min max : Nat) (row : Row) : Except EvalError (List Row) := do
  let (_,out) ← expandRow base hop min max false [] row
  pure out

variable (hop : Expand)

theorem expandRow_emitted (min max : Nat) (emitted : List NodeId) (row : Row) :
    expandRow base hop min max false emitted row = (expandOne base hop min max row).map fun out => (emitted,out) := by
  unfold expandOne expandRow expandRowBy
  split
  · cases boundTarget hop row with
    | error e | ok target => rfl
  · rfl
  · rfl

theorem expandRowUpTo_none (min max : Nat) (endpointBfs : Bool) (window : Nat) (emitted : List NodeId)
    (row : Row) : expandRowUpTo base hop min max endpointBfs window none emitted row =
      expandRow base hop min max endpointBfs emitted row :=
  rfl

theorem expandUpTo_none (min max window : Nat) (emitted : List NodeId) (rows : List Row) :
    expandUpTo base hop min max false window none emitted rows=gather (expandOne base hop min max) rows := by
  induction rows with
  | nil => rfl
  | cons row rows ih =>
    rw [expandUpTo,gather,expandRowUpTo_none,expandRow_emitted]
    cases expandOne base hop min max row with
    | error e => rfl
    | ok out => exact congrArg (· >>= fun rest => pure (out++rest)) ih

theorem expandRows_plain {hop : Expand} {bounds : Option (Nat × Nat)} (hshortest : hop.shortest = .none)
    (hbounds : resolveLength params hop.length = .ok bounds) (rows : List Row) :
    expandRows params base hop none rows =
      gather (expandOne base hop (bounds.getD (1,1)).1 (clampHopMax (bounds.getD (1,1)).2)) rows := by
  rw [expandRows,hbounds]
  change (if hop.shortest = .none then _ else _) = _
  rw [if_pos hshortest]
  exact expandUpTo_none hop _ _ _ [] rows

variable (input : LogicalPlan)

theorem execute_project_eq (items : List ProjectionItem) (distinct discardInputBindings : Bool)
    (outer : Option Row) (cap : Option Nat) :
    execute L C params base (.project input items distinct discardInputBindings) outer cap =
      executeProject L params base items distinct discardInputBindings cap (endpointOf L C params base outer input)
        (execute L C params base input outer (if distinct then none else cap)) := by
  cases input with
  | topN input keys skip limit => cases input <;> rfl
  | _ => rfl

theorem execute_project (items : List ProjectionItem) (discardInputBindings : Bool)
    (outer : Option Row) (cap : Option Nat) :
    execute L C params base (.project input items false discardInputBindings) outer cap =
      execute L C params base input outer cap >>= projectRows L params items discardInputBindings :=
  execute_project_eq input items false discardInputBindings outer cap

end
section
variable {L : Scalars}

theorem groupKey_cons (v : RuntimeValue) (vs : List RuntimeValue) :
    groupKey L (v::vs)=fingerprint L.ids v ++ '|' :: groupKey L vs := by
  simp [groupKey]

theorem groupKey_inj (hlen : vs.length=ws.length) (h : groupKey L vs=groupKey L ws) :
    vs.map (fingerprint L.ids)=ws.map (fingerprint L.ids) := by
  induction vs generalizing ws with
  | nil => cases List.length_eq_zero_iff.mp hlen.symm; rfl
  | cons v vs ih =>
    cases ws with
    | nil => simp at hlen
    | cons w ws =>
      rw [groupKey_cons,groupKey_cons] at h
      obtain ⟨hkey,hrest⟩ := fingerprint_split v w _ _ h
      rw [List.map_cons,List.map_cons,fingerprint_congr v w hkey,ih (by simpa using hlen) (by simpa using hrest)]

theorem fingerprint_groupKey_iff (L : Scalars) :
    (∀ v w, fingerprint L.ids v = fingerprint L.ids w ↔ identity v = identity w) ∧
    ∀ vs ws : List RuntimeValue, vs.length = ws.length →
      (groupKey L vs = groupKey L ws ↔ vs.map (fingerprint L.ids) = ws.map (fingerprint L.ids)) := by
  refine ⟨fun v w => fingerprint_eq_iff.trans (sameKey_iff_identity v w),fun vs ws hlen => ⟨groupKey_inj hlen,?_⟩⟩
  intro h
  simpa [groupKey,List.flatMap_def,Function.comp_def] using
    congrArg (fun texts => (texts.map fun text => text++['|']).flatten) h

theorem groupKey_splits_delimiter : groupKey .bare [.string "|", .null] ≠ groupKey .bare [.null, .string "|"] := by
  intro h
  have := ((fingerprint_groupKey_iff .bare).2 [.string "|",.null] [.null,.string "|"] rfl).mp h
  simp [fingerprint] at this

end

end NamiDB.Cypher
