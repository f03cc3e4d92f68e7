import NamiDB.Cypher.Expand

/-! The searches for shortest paths: hop by hop from one row, from both ends of one pair, and once for all rows
that follow each other and share their source. -/
namespace NamiDB.Cypher
open Query Storage Lib

/-- A level of the search from one row. `seen` and `atHop` are the nodes that take no further walk on this
level, and a search for one path is `done` when it has it. -/
structure ShortestLevel where
  seen : List NodeId
  atHop : List NodeId
  next : List Step
  hits : List Row
  done : Bool

namespace Traversal

variable (t : Traversal)

-- A walk that uses an edge twice takes its slot in `seen`, but not the one in `atHop`.
def visitShortest (depth : Nat) (visited : List NodeId) (st : ShortestLevel) (step : Step) (edge : EdgeKey) :
    ShortestLevel :=
  let first := t.hop.shortest == .first
  if st.done||t.bound.contains edge then st
  else
    let target := partnerId edge t.hop.direction step.tail
    if t.min≤1&&(visited.contains target||(first&&st.seen.contains target)) then st
    else
      let seen := if t.min≤1&&first then target::st.seen else st.seen
      if 1<t.max&&step.rels.contains edge then { st with seen }
      else if 2≤t.min&&first&&st.atHop.contains target then { st with seen }
      else
        let atHop := if 2≤t.min&&first then target::st.atHop else st.atHop
        match t.reached target with
        | none => { st with seen, atHop }
        | some (view,isResult) =>
          let new := t.extend step edge target view
          let keeps := Nat.max t.min 1≤depth&&(t.matchesLabels&&isResult&&t.existing.all (·=target))
          { seen
            atHop
            next := if depth<t.max then st.next++[new] else st.next
            hits := if keeps then st.hits++[t.hitRow new] else st.hits
            done := keeps&&first }

def visitShortestLevel (depth : Nat) (visited : List NodeId) (frontier : List Step) (hits : List Row) :
    ShortestLevel :=
  (frontier.flatMap fun step => (t.edgesOf step.tail).map fun edge => (step,edge)).foldl
    (fun st a => t.visitShortest depth visited st a.1 a.2) ⟨[],[],[],hits,false⟩

/-- The hops from `depth` on. The level of the first match is the last one. -/
def traverseShortest : Nat → Nat → List NodeId → List Step → List Row → List Row
  | 0, _, _, _, hits => hits
  | hops+1, depth, visited, frontier, hits =>
    let st := t.visitShortestLevel depth visited frontier hits
    let visited := if t.min≤1 then st.next.map Step.tail++visited else visited
    if !st.hits.isEmpty||st.next.isEmpty then st.hits
    else traverseShortest hops (depth+1) visited st.next st.hits

end Traversal

/-- One row of `execute_expand` in one of the modes for shortest paths. -/
def expandShortestRow (base : Base) (hop : Expand) (min max : Nat) (row : Row) : Except EvalError (List Row) :=
  match row.get hop.source with
  | some (.node n) => do
    let (existing,matchesLabels) ← boundTarget hop row
    let bound := boundRelKeysAll (hop.uniqueRels.filterMap row.get)
    let t : Traversal := ⟨base,hop,min,max,false,bound,existing,matchesLabels,row⟩
    let zero := min==0&&matchesLabels&&hop.targetLabels.all n.labels.contains&&existing.all (·=n.id)
    let start : Step := ⟨n.id,row,if hop.pathBinding.isSome then [.node n] else [],[],[]⟩
    let hits := t.traverseShortest max 1 (if min≤1 then [n.id] else []) (if matchesLabels then [start] else [])
      (if zero then [t.zeroRow n] else [])
    pure (if hits.isEmpty&&hop.optional then [optionalNullRow hop row] else hits)
  | some .null => .ok (if hop.optional then [optionalNullRow hop row] else [])
  | _ => .error s!"Expand source `{hop.source}` is not a Node"

def flipDirection : RelationshipDirection → RelationshipDirection
  | .right => .left
  | .left => .right
  | .both => .both

structure Side where
  depth : Nat
  frontier : List NodeId
  visited : List (NodeId × Nat)
  parents : List (NodeId × NodeId × EdgeKey)

def Side.start (node : NodeId) : Side := ⟨0,[node],[(node,0)],[]⟩

/-- A side while it takes a level, and the shortest meeting of both sides so far. -/
structure Meeting where
  side : Side
  next : List NodeId
  best : Option (Nat × NodeId)

def arriveFrom (other : Side) (direction : RelationshipDirection) (st : Meeting) (a : NodeId × EdgeKey) : Meeting :=
  let partner := partnerId a.2 direction a.1
  if (st.side.visited.lookup partner).isSome then st
  else
    let depth := st.side.depth+1
    { side := { st.side with
        visited := (partner,depth)::st.side.visited
        parents := (partner,a)::st.side.parents }
      next := st.next++[partner]
      best := match other.visited.lookup partner with
        | some d => if st.best.all (fun best => depth+d<best.1) then some (depth+d,partner) else st.best
        | none => st.best }

def expandLevel (graph : Graph) (edgeTypes : List String) (direction : RelationshipDirection) (side other : Side)
    (best : Option (Nat × NodeId)) : Side × Option (Nat × NodeId) :=
  let st := (side.frontier.flatMap fun node =>
    (neighboursOfAny graph edgeTypes direction node).map fun edge => (node,edge)).foldl
      (arriveFrom other direction) ⟨side,[],best⟩
  ({ st.side with frontier := st.next, depth := side.depth+1 },st.best)

/-- The smaller frontier goes on, until no shorter meeting is possible. -/
def meetInMiddle (graph : Graph) (edgeTypes : List String) (direction : RelationshipDirection) (max : Nat) :
    Nat → Side → Side → Option (Nat × NodeId) → Side × Side × Option (Nat × NodeId)
  | 0, fwd, bwd, best => (fwd,bwd,best)
  | rounds+1, fwd, bwd, best =>
    let reach := fwd.depth+bwd.depth
    if best.any (fun best => best.1≤reach)||max≤reach||fwd.frontier.isEmpty||bwd.frontier.isEmpty then
      (fwd,bwd,best)
    else if fwd.frontier.length≤bwd.frontier.length then
      let (fwd,best) := expandLevel graph edgeTypes direction fwd bwd best
      meetInMiddle graph edgeTypes direction max rounds fwd bwd best
    else
      let (bwd,best) := expandLevel graph edgeTypes (flipDirection direction) bwd fwd best
      meetInMiddle graph edgeTypes direction max rounds fwd bwd best

def parentChain (parents : List (NodeId × NodeId × EdgeKey)) (stop : NodeId) : Nat → NodeId → List (NodeId × EdgeKey)
  | 0, _ => []
  | steps+1, cursor =>
    if cursor=stop then []
    else match parents.lookup cursor with
      | some a => a::parentChain parents stop steps a.1
      | none => []

/-- The nodes and the edges of a shortest path between two nodes. Each round makes a side one level deeper. -/
def bidirectionalFirstPath (graph : Graph) (edgeTypes : List String) (direction : RelationshipDirection)
    (src dst : NodeId) (max : Nat) : Option (List NodeId × List EdgeKey) :=
  match meetInMiddle graph edgeTypes direction max max (Side.start src) (Side.start dst) none with
  | (_,_,none) => none
  | (fwd,bwd,some (total,meet)) =>
    if max<total||total==0 then none
    else
      let before := (parentChain fwd.parents src fwd.depth meet).reverse
      let after := parentChain bwd.parents dst bwd.depth meet
      some (before.map Prod.fst++meet::after.map Prod.fst,before.map Prod.snd++after.map Prod.snd)

/-- The path with its values. Both ends are taken as the rows have them. -/
def pairTrail (graph : Graph) (src dst : NodeId) (srcValue dstValue : Option RuntimeValue) (nodes : List NodeId)
    (rels : List RuntimeValue) : List RuntimeValue :=
  let value (node : NodeId) : RuntimeValue :=
    ((if node=src then srcValue
      else if node=dst then dstValue
      else (lookupNodeById graph node).map .node)).getD .null
  match nodes with
  | [] => []
  | node::nodes => value node::(rels.zip nodes).flatMap fun e => [e.1,value e.2]

abbrev PathHit := List RuntimeValue × List RuntimeValue

structure PathState where
  tail : NodeId
  trail : List RuntimeValue
  rels : List EdgeKey
  relValues : List RuntimeValue

/-- A level of the search for all targets of one source. `remaining` are the targets without a path. -/
structure GroupedLevel where
  remaining : List NodeId
  seen : List NodeId
  atHop : List NodeId
  found : List NodeId
  next : List PathState
  hits : Table NodeId PathHit

structure GroupedSearch where
  base : Base
  hop : Expand
  min : Nat
  max : Nat

namespace GroupedSearch

variable (s : GroupedSearch)

def extend (state : PathState) (edge : EdgeKey) (target : NodeId) : PathState :=
  let rel := RuntimeValue.rel (relValue s.base.graph edge)
  { tail := target
    trail := if s.hop.pathBinding.isSome then
        state.trail++[rel,((lookupNodeById s.base.graph target).map .node).getD .null]
      else state.trail
    rels := if 1<s.max then state.rels++[edge] else state.rels
    relValues := if s.hop.relAlias.isSome then state.relValues++[rel] else state.relValues }

def visitEdge (depth : Nat) (visited : List NodeId) (st : GroupedLevel) (a : PathState × EdgeKey) : GroupedLevel :=
  let first := s.hop.shortest == .first
  let target := partnerId a.2 s.hop.direction a.1.tail
  if 1<s.max&&a.1.rels.contains a.2 then st
  else if s.min≤1&&(visited.contains target||(first&&st.seen.contains target)) then st
  else
    let seen := if s.min≤1&&first then target::st.seen else st.seen
    if 2 ≤ s.min&&first&&st.atHop.contains target then { st with seen }
    else
      let atHop := if 2 ≤ s.min&&first then target::st.atHop else st.atHop
      let new := s.extend a.1 a.2 target
      if Nat.max s.min 1≤depth&&st.remaining.contains target then
        { remaining := if first then st.remaining.filter (·≠target) else st.remaining
          seen
          atHop
          found := target::st.found
          next := st.next++[new]
          hits := st.hits.push target (new.trail,new.relValues) }
      else { st with seen, atHop, next := st.next++[new] }

def visitLevel (depth : Nat) (visited : List NodeId) (frontier : List PathState) (remaining : List NodeId)
    (hits : Table NodeId PathHit) : GroupedLevel :=
  (frontier.flatMap fun state =>
    (neighboursOfAny s.base.graph (resolveEdgeTypes s.base s.hop.edgeType) s.hop.direction state.tail).map
      fun edge => (state,edge)).foldl (s.visitEdge depth visited) ⟨remaining,[],[],[],[],hits⟩

def levels : Nat → Nat → List NodeId → List PathState → List NodeId → Table NodeId PathHit → Table NodeId PathHit
  | 0, _, _, _, _, hits => hits
  | hops+1, depth, visited, frontier, remaining, hits =>
    if remaining.isEmpty||frontier.isEmpty then hits
    else
      let st := s.visitLevel depth visited frontier remaining hits
      let visited := if s.min≤1 then st.next.map PathState.tail++visited else visited
      levels hops (depth+1) visited st.next (st.remaining.filter fun t => !st.found.contains t) st.hits

/-- The paths from a source to each of the targets. A single pair is searched from both ends. -/
def pathHits (n : NodeValue) (dstValue : NodeId → Option RuntimeValue) (targets : List NodeId) :
    Table NodeId PathHit :=
  let trail := if s.hop.pathBinding.isSome then [.node n] else []
  let zero := s.min==0&&targets.contains n.id
  let hits := if zero then Table.push [] n.id (trail,[]) else []
  let remaining := (if zero then targets.filter (·≠n.id) else targets).dedup
  match (match remaining with
    | [target] => if s.hop.shortest == .first&&s.min≤1&&1<s.max&&target≠n.id then some target else none
    | _ => none) with
  | some target =>
    match bidirectionalFirstPath s.base.graph (resolveEdgeTypes s.base s.hop.edgeType) s.hop.direction n.id target
        s.max with
    | some (nodes,edges) =>
      let rels := edges.map fun edge => RuntimeValue.rel (relValue s.base.graph edge)
      hits.push target (if s.hop.pathBinding.isSome then
        pairTrail s.base.graph n.id target (some (.node n)) (dstValue target) nodes rels else [],rels)
    | none => hits
  | none =>
    s.levels s.max 1 (if s.min≤1 then [n.id] else []) [⟨n.id,trail,[],[]⟩] remaining hits

end GroupedSearch

def sameSource (source : String) (a b : Row) : Bool :=
  match a.get source, b.get source with
  | some (.node n), some (.node m) => n.id=m.id
  | _, _ => false

def rowTarget (hop : Expand) (row : Row) : Except EvalError (Option NodeId) := do
  let (existing,matchesLabels) ← boundTarget hop row
  pure (if matchesLabels then existing else none)

def boundNode (name : String) (id : NodeId) (row : Row) : Option RuntimeValue :=
  match row.get name with
  | some (.node n) => if n.id=id then some (.node n) else none
  | _ => none

def pathRow (hop : Expand) (row : Row) (hit : PathHit) : Row :=
  let row := match hop.relAlias with
    | some name => row.set name (.list hit.2)
    | none => row
  match hop.pathBinding with
  | some name => row.set name (.path hit.1)
  | none => row

def pathRows (hop : Expand) (hits : Table NodeId PathHit) (row : Row) (target : Option NodeId) : List Row :=
  let found := (target.map hits.find).getD []
  if found.isEmpty&&hop.optional then [optionalNullRow hop row] else found.map (pathRow hop row)

def expandShortestRun (base : Base) (hop : Expand) (min max : Nat) (run : List Row) : Except EvalError (List Row) :=
  match run with
  | [] => .ok []
  | row::_ =>
    match row.get hop.source with
    | some (.node n) => do
      let targets ← gather (fun row => do
        let target ← rowTarget hop row
        pure [target]) run
      let hits := GroupedSearch.pathHits ⟨base,hop,min,max⟩ n
        (fun id => run.findSome? (boundNode hop.targetAlias id)) (targets.filterMap id)
      pure ((run.zip targets).flatMap fun e => pathRows hop hits e.1 e.2)
    | some .null => .ok (if hop.optional then [optionalNullRow hop row] else [])
    | _ => .error s!"Expand source `{hop.source}` is not a Node"

def executeExpandShortestGrouped (base : Base) (hop : Expand) (min max : Nat) (rows : List Row) :
    Except EvalError (List Row) :=
  gather (expandShortestRun base hop min max) (rows.splitBy (sameSource hop.source))

/-- A limit, or a target that is not bound, leaves each row its own search. -/
def executeExpandShortest (base : Base) (hop : Expand) (min max : Nat) (cap : Option Nat) (rows : List Row) :
    Except EvalError (List Row) :=
  if hop.backReference&&cap.isNone then executeExpandShortestGrouped base hop min max rows
  else gatherUpTo (fun _ => expandShortestRow base hop min max) cap rows

end NamiDB.Cypher
