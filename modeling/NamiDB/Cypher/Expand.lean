import NamiDB.Cypher.Operators

/-! The operator that follows relationships from the nodes its rows bind, one hop after the other. -/
namespace NamiDB.Cypher
open Query Storage Lib

def relValue (graph : Graph) (key : EdgeKey) : RelValue :=
  ⟨key.edgeType,key.src,key.dst,(graph.edges.lookup key).getD ∅⟩

def lookupNodeById (graph : Graph) (id : NodeId) : Option NodeValue :=
  (graph.nodes.lookup id).map fun record => ⟨id,record.labels,record.props⟩

theorem lookupNodeById_id {id : NodeId} (h : lookupNodeById graph id=some n) : n.id=id := by
  obtain ⟨record,-,rfl⟩ := Option.map_eq_some_iff.mp h
  rfl

def resolveEdgeTypes (base : Base) : Option (List String) → List String
  | some types => types
  | none => base.edgeTypes

theorem nodup_resolveEdgeTypes {base : Base} {edgeType : Option (List String)}
    (h : ∀ types, edgeType=some types → types.Nodup) : (resolveEdgeTypes base edgeType).Nodup := by
  cases edgeType with
  | none => exact base.distinct
  | some types => exact h types rfl

/-- A relationship from a node to itself is among the outgoing ones already. -/
def neighboursOf (graph : Graph) (edgeType : String) (direction : RelationshipDirection) (node : NodeId) :
    List EdgeKey :=
  match direction with
  | .right => graph.outEdges edgeType node
  | .left => graph.inEdges edgeType node
  | .both => graph.outEdges edgeType node++(graph.inEdges edgeType node).filter fun key => key.src≠key.dst

def neighboursOfAny (graph : Graph) (edgeTypes : List String) (direction : RelationshipDirection) (node : NodeId) :
    List EdgeKey :=
  edgeTypes.flatMap fun edgeType => neighboursOf graph edgeType direction node

def exactEdgesBetween (direction : RelationshipDirection) (start stop : NodeId) (edgeType : String) : List EdgeKey :=
  match direction with
  | .right => [⟨edgeType,start,stop⟩]
  | .left => [⟨edgeType,stop,start⟩]
  | .both => ⟨edgeType,start,stop⟩::if start=stop then [] else [⟨edgeType,stop,start⟩]

def exactEdgesBetweenAny (graph : Graph) (edgeTypes : List String) (direction : RelationshipDirection)
    (start stop : NodeId) : List EdgeKey :=
  (edgeTypes.flatMap (exactEdgesBetween direction start stop)).filter fun key => graph.edges.keys.contains key

def partnerId (edge : EdgeKey) (direction : RelationshipDirection) (source : NodeId) : NodeId :=
  match direction with
  | .right => edge.dst
  | .left => edge.src
  | .both => if edge.src=source then edge.dst else edge.src

mutual
/-- The relationships that a binding holds, also inside lists. -/
def boundRelKeys : RuntimeValue → List EdgeKey
  | .rel r => [⟨r.edgeType,r.src,r.dst⟩]
  | .list items => boundRelKeysAll items
  | _ => []

def boundRelKeysAll : List RuntimeValue → List EdgeKey
  | [] => []
  | v::vs => boundRelKeys v++boundRelKeysAll vs
end

/-- A bound that is a parameter is read as a `u32`. -/
def resolveHopParam (params : Params) (name : String) : Except EvalError Nat :=
  match params name with
  | some (.integer n) =>
    if 0≤n then .ok (n.toNat%2^32) else .error s!"variable-length bound `${name}` must be non-negative"
  | some v => .error s!"variable-length bound `${name}` must be an integer, got {v.typeName}"
  | none => .error s!"variable-length bound parameter `${name}` not provided"

def resolveLength (params : Params) : Option RelationshipLength → Except EvalError (Option (Nat × Nat))
  | none => .ok none
  | some l => do
    let min ← match l.minParam with
      | some p => resolveHopParam params p
      | none => pure l.min
    let max ← match l.maxParam with
      | some p => resolveHopParam params p
      | none => pure l.max
    if max < min then throw s!"variable-length range resolves to *{min}..{max} (max < min)"
    pure (some (min,max))

def clampHopMax (max : Nat) : Nat := if max=openBound then unboundedVarLengthCap else max

structure Step where
  tail : NodeId
  row : Row
  trail : List RuntimeValue
  rels : List EdgeKey
  relValues : List RuntimeValue

/-- What stays the same while one row is expanded. `existing` is the node that a target bound before holds,
and `prune` says that only the first arrival at a node counts. -/
structure Traversal where
  base : Base
  hop : Expand
  min : Nat
  max : Nat
  prune : Bool
  bound : List EdgeKey
  existing : Option NodeId
  matchesLabels : Bool
  seed : Row

structure LevelState where
  seen : List NodeId
  next : List Step
  hits : List Row

namespace Traversal

variable (t : Traversal)

def edgesOf (tail : NodeId) : List EdgeKey :=
  let types := resolveEdgeTypes t.base t.hop.edgeType
  if t.hop.backReference&&t.max==1 then
    match t.existing with
    | some target => exactEdgesBetweenAny t.base.graph types t.hop.direction tail target
    | none => []
  else neighboursOfAny t.base.graph types t.hop.direction tail

/-- The node that is reached and whether its labels make it a result. A node that a single hop reaches is
left out when they do not. -/
def reached (target : NodeId) : Option (Option NodeValue × Bool) :=
  if t.hop.backReference then some (none,true)
  else match lookupNodeById t.base.graph target with
    | none => none
    | some view =>
      let isResult := t.hop.targetLabels.all view.labels.contains
      if !isResult&&t.max==1 then none else some (some view,isResult)

def trailNode (target : NodeId) (view : Option NodeValue) : RuntimeValue :=
  match view with
  | some n => .node n
  | none =>
    if some target=t.existing then
      match t.seed.get t.hop.targetAlias with
      | some (.node n) => .node n
      | _ => .null
    else match lookupNodeById t.base.graph target with
      | some n => .node n
      | none => .null

def extend (step : Step) (edge : EdgeKey) (target : NodeId) (view : Option NodeValue) : Step :=
  let rel := RuntimeValue.rel (relValue t.base.graph edge)
  let row := match t.hop.length, t.hop.relAlias with
    | none, some name => step.row.set name rel
    | _, _ => step.row
  { tail := target
    row := match view with
      | some n => row.set t.hop.targetAlias (.node n)
      | none => row
    trail := if t.hop.pathBinding.isSome then step.trail++[rel,t.trailNode target view] else step.trail
    rels := if 1<t.max then step.rels++[edge] else step.rels
    relValues := if t.hop.length.isSome&&t.hop.relAlias.isSome then step.relValues++[rel] else step.relValues }

/-- The row of a result. A length, even `*1..1`, binds the list of relationships. -/
def hitRow (step : Step) : Row :=
  let row := match t.hop.length, t.hop.relAlias with
    | some _, some name => step.row.set name (.list step.relValues)
    | _, _ => step.row
  match t.hop.pathBinding with
  | some name => row.set name (.path step.trail)
  | none => row

-- The slot of a node in `seen` is taken before the walk is asked whether it has used the edge already.
def visitEdge (depth : Nat) (visited : List NodeId) (st : LevelState) (step : Step) (edge : EdgeKey) : LevelState :=
  if t.bound.contains edge then st
  else
    let target := partnerId edge t.hop.direction step.tail
    if t.prune&&(visited.contains target||st.seen.contains target) then st
    else
      let seen := if t.prune then target::st.seen else st.seen
      if 1<t.max&&step.rels.contains edge then { st with seen }
      else match t.reached target with
        | none => { st with seen }
        | some (view,isResult) =>
          let new := t.extend step edge target view
          let keeps := t.matchesLabels&&isResult&&t.existing.all (·=target)
          { seen
            next := if depth<t.max then st.next++[new] else st.next
            hits := if Nat.max t.min 1≤depth&&keeps then st.hits++[t.hitRow new] else st.hits }

def visitLevel (depth : Nat) (visited : List NodeId) (frontier : List Step) (hits : List Row) : LevelState :=
  (frontier.flatMap fun step => (t.edgesOf step.tail).map fun edge => (step,edge)).foldl
    (fun st a => t.visitEdge depth visited st a.1 a.2) ⟨[],[],hits⟩

def traverse : Nat → Nat → List NodeId → List Step → List Row → List Row
  | 0, _, _, _, hits => hits
  | hops+1, depth, visited, frontier, hits =>
    let st := t.visitLevel depth visited frontier hits
    let visited := if t.prune then st.next.map Step.tail++visited else visited
    if st.next.isEmpty then st.hits else traverse hops (depth+1) visited st.next st.hits

/-- The edges of a level in windows, each twice as large as the one before, until `room` rows are found. -/
def visitWaves (depth : Nat) (visited : List NodeId) (room : Nat) :
    Nat → Nat → List (Step × EdgeKey) → LevelState → LevelState
  | 0, _, _, st => st
  | waves+1, size, edges, st =>
    let st := (edges.take size).foldl (fun st a => t.visitEdge depth visited st a.1 a.2) st
    if (edges.drop size).isEmpty||room ≤ st.hits.length then st
    else visitWaves depth visited room waves (2*size) (edges.drop size) st

def traverseUpTo (room : Nat) : Nat → Nat → List NodeId → List Step → List Row → List Row
  | 0, _, _, _, hits => hits
  | hops+1, depth, visited, frontier, hits =>
    let st := t.visitLevel depth visited frontier hits
    let visited := if t.prune then st.next.map Step.tail++visited else visited
    if room ≤ st.hits.length||st.next.isEmpty then st.hits
    else traverseUpTo room hops (depth+1) visited st.next st.hits

/-- All hops of a row. A limit cuts a single hop between two windows and a search for endpoints between two
levels; it does not cut the walks of several hops. -/
def walk (window : Nat) (room : Option Nat) (frontier : List Step) (hits : List Row) : List Row :=
  match room with
  | none => t.traverse t.max 1 [] frontier hits
  | some room =>
    if t.prune then t.traverseUpTo room t.max 1 [] frontier hits
    else if t.max==1 && !t.hop.backReference then
      let edges := frontier.flatMap fun step => (t.edgesOf step.tail).map fun edge => (step,edge)
      (t.visitWaves 1 [] room (edges.length+1) window edges ⟨[],[],hits⟩).hits
    else t.traverse t.max 1 [] frontier hits

/-- The source as its own target. The path of such a match is not bound. -/
def zeroRow (node : NodeValue) : Row :=
  let row := if t.hop.backReference then t.seed else t.seed.set t.hop.targetAlias (.node node)
  match t.hop.relAlias with
  | some name => row.set name (.list [])
  | none => row

end Traversal

def optionalNullRow (hop : Expand) (row : Row) : Row :=
  let row := match hop.relAlias with
    | some name => row.set name .null
    | none => row
  let row := if hop.backReference then row else row.set hop.targetAlias .null
  match hop.pathBinding with
  | some name => row.set name .null
  | none => row

def boundTarget (hop : Expand) (row : Row) : Except EvalError (Option NodeId × Bool) :=
  if hop.backReference then
    match row.get hop.targetAlias with
    | some (.node n) => .ok (some n.id,hop.targetLabels.all n.labels.contains)
    | some .null => .ok (none,false)
    | _ => .error s!"Expand back-reference target `{hop.targetAlias}` is not a Node"
  else .ok (none,true)

/-- One row. `emitted` are the nodes that a search for distinct endpoints has returned without a hop. -/
def expandRowBy (walk : Traversal → List Step → List Row → List Row) (base : Base) (hop : Expand) (min max : Nat)
    (endpointBfs : Bool) (emitted : List NodeId) (row : Row) : Except EvalError (List NodeId × List Row) :=
  match row.get hop.source with
  | some (.node n) => do
    let (existing,matchesLabels) ← boundTarget hop row
    let bound := boundRelKeysAll (hop.uniqueRels.filterMap row.get)
    let t : Traversal := ⟨base,hop,min,max,endpointBfs,bound,existing,matchesLabels,row⟩
    let zero := min==0&&matchesLabels&&hop.targetLabels.all n.labels.contains &&
      existing.all (·=n.id) && !(endpointBfs&&emitted.contains n.id)
    let start : Step := ⟨n.id,row,if hop.pathBinding.isSome then [.node n] else [],[],[]⟩
    let hits := walk t (if matchesLabels then [start] else []) (if zero then [t.zeroRow n] else [])
    pure (if endpointBfs&&zero then n.id::emitted else emitted,
      if hits.isEmpty&&hop.optional then [optionalNullRow hop row] else hits)
  | some .null => .ok (emitted,if hop.optional then [optionalNullRow hop row] else [])
  | _ => .error s!"Expand source `{hop.source}` is not a Node"

def expandRow (base : Base) (hop : Expand) (min max : Nat) (endpointBfs : Bool) (emitted : List NodeId)
    (row : Row) : Except EvalError (List NodeId × List Row) :=
  expandRowBy (fun t => t.traverse t.max 1 []) base hop min max endpointBfs emitted row

def expandRowUpTo (base : Base) (hop : Expand) (min max : Nat) (endpointBfs : Bool) (window : Nat)
    (room : Option Nat) (emitted : List NodeId) (row : Row) : Except EvalError (List NodeId × List Row) :=
  expandRowBy (fun t => t.walk window room) base hop min max endpointBfs emitted row

def executeExpand (base : Base) (hop : Expand) (min max : Nat) (endpointBfs : Bool) :
    List NodeId → List Row → Except EvalError (List Row)
  | _, [] => .ok []
  | emitted, row::rows => do
    let (emitted,out) ← expandRow base hop min max endpointBfs emitted row
    let rest ← executeExpand base hop min max endpointBfs emitted rows
    pure (out++rest)

end NamiDB.Cypher
