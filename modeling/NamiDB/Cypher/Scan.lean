import NamiDB.Cypher.Expand

/-! The reads of nodes: scans with their predicates and columns, and lookups by id and by property. -/
namespace NamiDB.Cypher
open Query Storage Lib

/-- Larger floats have larger keys; both zeros have the same. -/
def floatKey (bits : BitVec 64) : Int :=
  if bits.toNat<2^63 then bits.toNat else 2^63-bits.toNat

/-- `partial_cmp`, with `Equal` where a NaN is compared. -/
def floatCmp (a b : BitVec 64) : Ordering :=
  if isNan 52 a||isNan 52 b then .eq else compare (floatKey a) (floatKey b)

def valueCmp : Value → StatScalar → Option Ordering
  | .bool a, .bool b => some (compare a b)
  | .i64 a, .int64 b => some (compare a b)
  | .f64 a, .float64 b => some (floatCmp a b)
  | .i64 a, .float64 b => some (floatCmp (i64AsF64 a) b)
  | .f64 a, .int64 b => some (floatCmp a (i64AsF64 b))
  | .str a, .utf8 b => some (compare a b)
  | _, _ => none

def ScanPredicate.column : ScanPredicate → String
  | .eq column _ | .lt column _ | .ltEq column _ | .gt column _ | .gtEq column _ | .isNull column
  | .isNotNull column | .isIn column _ => column

/-- A stored NULL counts as missing. -/
def evalAgainstValue (predicate : ScanPredicate) (value : Option Value) : Bool :=
  match predicate, value with
  | .isNull _, none | .isNull _, some .null => true
  | .isNull _, some _ => false
  | .isNotNull _, none | .isNotNull _, some .null => false
  | .isNotNull _, some _ => true
  | _, none | _, some .null => false
  | .eq _ s, some v => valueCmp v s=some .eq
  | .lt _ s, some v => valueCmp v s=some .lt
  | .ltEq _ s, some v => valueCmp v s=some .lt ∨ valueCmp v s=some .eq
  | .gt _ s, some v => valueCmp v s=some .gt
  | .gtEq _ s, some v => valueCmp v s=some .gt ∨ valueCmp v s=some .eq
  | .isIn _ values, some v => values.any fun s => valueCmp v s=some .eq

section

def nodeValue (e : Sigma fun _ : NodeId => NodeRecord) : NodeValue := ⟨e.1,e.2.labels,e.2.props⟩

def pruneProperties (projection : Option (List String)) (properties : Properties) : Properties :=
  match projection with
  | none => properties
  | some columns =>
    ⟨properties.entries.filter fun e => columns.contains e.1,
      List.NodupKeys.sublist List.filter_sublist properties.nodupKeys⟩

def scanKeeps (label : Option String) (predicates : List ScanPredicate) (n : NodeValue) : Bool :=
  label.all n.labels.contains&&predicates.all fun p => evalAgainstValue p (n.properties.lookup p.column)

/-- The nodes of a scan, in the order of their ids. The predicates see every column. -/
def scanNodeViews (graph : Graph) (label : Option String) (predicates : List ScanPredicate)
    (projection : Option (List String)) : List NodeValue :=
  let nodes := (graph.nodes.entries.map nodeValue).insertionSort fun a b => a.id≤b.id
  (nodes.filter (scanKeeps label predicates)).map fun n =>
    { n with properties := pruneProperties projection n.properties }

variable {graph : Graph} {n : NodeValue}

theorem mem_entries : n∈graph.nodes.entries.map nodeValue ↔ lookupNodeById graph n.id=some n := by
  unfold lookupNodeById
  rw [List.mem_map]
  constructor
  · rintro ⟨⟨id,record⟩,he,rfl⟩
    have : graph.nodes.lookup id=some record := AList.mem_lookup_iff.mpr he
    show (graph.nodes.lookup id).map _ = _
    rw [this]
    rfl
  · intro h
    cases hr : graph.nodes.lookup n.id with
    | none => simp [hr] at h
    | some record =>
      rw [hr] at h
      exact ⟨⟨n.id,record⟩,AList.mem_lookup_iff.mp hr,Option.some.inj h⟩

theorem mem_scanNodeViews :
    n∈scanNodeViews graph label predicates none ↔
      lookupNodeById graph n.id=some n ∧ scanKeeps label predicates n=true := by
  unfold scanNodeViews
  simp [pruneProperties,mem_entries]

end

section

def labelScope (label : String) : Option String := if label = "" then none else some label

def lookupNode (graph : Graph) (label : String) (id : NodeId) : Option NodeValue :=
  (lookupNodeById graph id).filter fun n => (labelScope label).all n.labels.contains

def nodePropertyEquals (view : NodeValue) (property : String) (value : RuntimeValue) : Bool :=
  match view.properties.lookup property with
  | some stored => isEqual (RuntimeValue.ofCore stored) value
  | none => false

/-- The route, through an index or the scan, does not show in the result. -/
def lookupNodesByProperty (graph : Graph) (label property : String) (value : RuntimeValue) : List NodeValue :=
  if isNullValue value then []
  else (scanNodeViews graph (labelScope label) [] none).filter fun n => nodePropertyEquals n property value

def lookupNodesByPropertyTuple (graph : Graph) (label : String) (properties : List String)
    (values : List RuntimeValue) : List NodeValue :=
  if values.any isNullValue then []
  else (scanNodeViews graph (labelScope label) [] none).filter fun n =>
    (properties.zip values).all fun p => nodePropertyEquals n p.1 p.2

variable (L : Scalars)

def seekNodeId : RuntimeValue → Option NodeId
  | .string s => L.parseNodeId s
  | .node n => some n.id
  | _ => none

end
end NamiDB.Cypher
