import NamiDB.Lib.Assoc
import NamiDB.Storage.Manifest

/-! The per-writer index over property values: which nodes of a label hold a tuple of values, in committed and
staged state, with a journal for the pending batch and one for the request that is open in it. -/
namespace NamiDB.Storage
open Lib

/-- A property value. Floats are their bit patterns. -/
inductive Value where
  | null
  | bool (b : Bool)
  | i64 (n : Int)
  | f64 (bits : BitVec 64)
  | str (s : String)
  | bytes (b : List UInt8)
  | vec (xs : List (BitVec 32))
  | vecI8 (codes : List Int) (scale : BitVec 32)
  | date (days : Int)
  | dateTime (micros : Int)
  | list (xs : List Value)
  | map (entries : List (String × Value))

def valueDatatype : Value → Option DataType
  | .bool _ => some .bool
  | .i64 _ => some .int64
  | .f64 _ => some .float64
  | .str _ => some .utf8
  | .bytes _ => some .binary
  | .date _ => some .date32
  | .dateTime _ => some .timestampMicrosUtc
  | .null | .vec _ | .vecI8 _ _ | .list _ | .map _ => none

/-- All exponent bits set and a fraction; the sign is dropped by the shift. -/
def isNan (fraction : Nat) {w : Nat} (bits : BitVec w) : Bool :=
  decide (2^w-2^(fraction+1)<2*bits.toNat%2^w)

def isZero {w : Nat} (bits : BitVec w) : Bool :=
  decide (2*bits.toNat%2^w=0)

def floatEq (fraction : Nat) {w : Nat} (a b : BitVec w) : Bool :=
  !isNan fraction a && !isNan fraction b&&(decide (a=b)||isZero a&&isZero b)

def floatsEq : List (BitVec 32) → List (BitVec 32) → Bool
  | [], [] => true
  | a::as, b::bs => floatEq 23 a b&&floatsEq as bs
  | _, _ => false

mutual
/-- The derived `PartialEq`, which is what a scan compares with. -/
def Value.eq : Value → Value → Bool
  | .null, .null => true
  | .bool a, .bool b => a==b
  | .i64 a, .i64 b => a==b
  | .f64 a, .f64 b => floatEq 52 a b
  | .str a, .str b => a==b
  | .bytes a, .bytes b => a==b
  | .vec a, .vec b => floatsEq a b
  | .vecI8 a s, .vecI8 b t => a==b&&floatEq 23 s t
  | .date a, .date b => a==b
  | .dateTime a, .dateTime b => a==b
  | .list a, .list b => Value.listEq a b
  | .map a, .map b => Value.mapEq a b
  | _, _ => false

def Value.listEq : List Value → List Value → Bool
  | [], [] => true
  | a::as, b::bs => Value.eq a b&&Value.listEq as bs
  | _, _ => false

def Value.mapEq : List (String × Value) → List (String × Value) → Bool
  | [], [] => true
  | (k,a)::as, (l,b)::bs => k==l&&Value.eq a b&&Value.mapEq as bs
  | _, _ => false
end

theorem floatEq_comm (fraction : Nat) (a b : BitVec w) : floatEq fraction a b=floatEq fraction b a := by
  simp [floatEq,Bool.and_comm,eq_comm]

theorem floatsEq_comm (a b : List (BitVec 32)) : floatsEq a b=floatsEq b a := by
  induction a generalizing b with
  | nil => cases b <;> rfl
  | cons x a ih =>
    cases b with
    | nil => rfl
    | cons y b => simp [floatsEq,floatEq_comm 23 x y,ih b]

mutual
theorem Value.eq_comm (a b : Value) : a.eq b=b.eq a := by
  cases a <;> cases b <;> simp only [Value.eq]
  case f64.f64 => exact floatEq_comm 52 _ _
  case vec.vec => exact floatsEq_comm _ _
  case vecI8.vecI8 a s b t => rw [floatEq_comm 23 s t,BEq.comm]
  case list.list a b => exact Value.listEq_comm a b
  case map.map a b => exact Value.mapEq_comm a b
  all_goals exact BEq.comm

theorem Value.listEq_comm (a b : List Value) : Value.listEq a b=Value.listEq b a := by
  match a, b with
  | [], [] | [], _ :: _ | _ :: _, [] => rfl
  | x::a, y::b => simp only [Value.listEq,Value.eq_comm x y,Value.listEq_comm a b]

theorem Value.mapEq_comm (a b : List (String × Value)) : Value.mapEq a b=Value.mapEq b a := by
  match a, b with
  | [], [] | [], _ :: _ | _ :: _, [] => rfl
  | (k,x)::a, (l,y)::b =>
    simp only [Value.mapEq,Value.eq_comm x y,Value.mapEq_comm a b,BEq.comm (a := k) (b := l)]
end

abbrev NodeId := Key16

inductive UniqueProbe where
  | conflict (id : NodeId)
  | noConflict
  | unindexable
  deriving DecidableEq

inductive UniqueKeyPart where
  | str (s : String)
  | i64 (n : Int)
  | bool (b : Bool)
  | f64 (bits : BitVec 64)
  | bytes (b : List UInt8)
  | date (days : Int)
  | dateTime (micros : Int)
  deriving DecidableEq

abbrev UniqueKey := List UniqueKeyPart

/-- NaN has no key, and both zeros have one. -/
def keyPart : Value → Option UniqueKeyPart
  | .str s => some (.str s)
  | .i64 n => some (.i64 n)
  | .bool b => some (.bool b)
  | .f64 f => if isNan 52 f then none else some (.f64 (if isZero f then 0 else f))
  | .bytes b => some (.bytes b)
  | .date d => some (.date d)
  | .dateTime m => some (.dateTime m)
  | .null | .vec _ | .vecI8 _ _ | .list _ | .map _ => none

def encodeProbeKey (values : List Value) : Option UniqueKey :=
  values.mapM keyPart

abbrev Properties := AList fun _ : String => Value

def encodeNodeKey (names : List String) (props : Properties) : Option UniqueKey :=
  names.mapM fun n => (props.lookup n).bind keyPart

/-- A label and property names; the empty label is the scope of every node. -/
abbrev ConstraintId := String × List String

/-- `holders` keeps every node that carries a tuple, never an empty list; `byNode` is the reverse edge. A map
that is not complete answers only for keys with a holder and for `knownMisses`. -/
structure ConstraintMap where
  holders : AList fun _ : UniqueKey => List NodeId
  byNode : AList fun _ : NodeId => UniqueKey
  complete : Bool
  knownMisses : List UniqueKey

namespace ConstraintMap

def empty : ConstraintMap := ⟨∅,∅,false,[]⟩

def detach (self : ConstraintMap) (id : NodeId) : ConstraintMap :=
  match self.byNode.lookup id with
  | none => self
  | some old =>
    let byNode := self.byNode.erase id
    match self.holders.lookup old with
    | none => { self with byNode }
    | some ids =>
      match ids.erase id with
      | [] => { self with
          byNode
          holders := self.holders.erase old
          knownMisses := if self.complete then self.knownMisses else self.knownMisses.insert old }
      | rest => { self with byNode, holders := self.holders.insert old rest }

def file (self : ConstraintMap) (id : NodeId) (key : UniqueKey) : ConstraintMap :=
  { self with
    knownMisses := self.knownMisses.filter (·≠key)
    holders := self.holders.insert key (match self.holders.lookup key with
      | none => [id]
      | some ids => ids.insert id)
    byNode := self.byNode.insert id key }

/-- Every caller detaches a node before it files it. -/
def rehome (self : ConstraintMap) (id : NodeId) (key : Option UniqueKey) : ConstraintMap :=
  match key with
  | none => self.detach id
  | some key => (self.detach id).file id key

def addMiss (self : ConstraintMap) (key : UniqueKey) : ConstraintMap :=
  { self with knownMisses := self.knownMisses.insert key }

def removeMiss (self : ConstraintMap) (key : UniqueKey) : ConstraintMap :=
  { self with knownMisses := self.knownMisses.filter (·≠key) }

def answers (self : ConstraintMap) (key : UniqueKey) : Bool :=
  self.complete||(self.holders.lookup key).isSome||decide (key∈self.knownMisses)

def holdersOf (self : ConstraintMap) (key : UniqueKey) : List NodeId :=
  (self.holders.lookup key).getD []

end ConstraintMap

/-- What to put back: each touched node's tuple before its first staged mutation, and whether each touched key
of a partial map was a known miss. A map created in the batch is dropped instead. -/
structure ConstraintUndo where
  createdInBatch : Bool
  byNode : AList fun _ : NodeId => Option UniqueKey
  knownMisses : AList fun _ : UniqueKey => Bool

namespace ConstraintUndo

def empty : ConstraintUndo := ⟨false,∅,∅⟩

def noteMiss (self : ConstraintUndo) (map : ConstraintMap) (key : UniqueKey) : ConstraintUndo :=
  { self with knownMisses := orInsert self.knownMisses key (decide (key∈map.knownMisses)) }

def noteNode (self : ConstraintUndo) (map : ConstraintMap) (id : NodeId) : ConstraintUndo :=
  { self with byNode := orInsert self.byNode id (map.byNode.lookup id) }

def noteMisses (self : ConstraintUndo) (map : ConstraintMap) (keys : List UniqueKey) : ConstraintUndo :=
  keys.foldl (noteMiss · map) self

/-- The first-touch entries for moving `id` to `newKey`. A complete map journals no misses. -/
def touch (self : ConstraintUndo) (map : ConstraintMap) (id : NodeId) (newKey : Option UniqueKey) : ConstraintUndo :=
  if self.createdInBatch then self
  else if map.complete then self.noteNode map id
  else (self.noteNode map id).noteMisses map ((map.byNode.lookup id).toList++newKey.toList)

/-- The entries of a later journal that are new; the older flag stays. -/
def mergeFrom (self later : ConstraintUndo) : ConstraintUndo :=
  { self with
    byNode := orInsertAll self.byNode later.byNode
    knownMisses := orInsertAll self.knownMisses later.knownMisses }

end ConstraintUndo

abbrev Journal := AList fun _ : ConstraintId => ConstraintUndo

/-- `requestUndo` is the journal of the open request, if one is. -/
structure IndexState where
  maps : AList fun _ : ConstraintId => ConstraintMap
  undo : Journal
  requestUndo : Option Journal

namespace IndexState

def new : IndexState := ⟨∅,∅,none⟩

def journal (self : IndexState) : Journal :=
  self.requestUndo.getD self.undo

def setJournal (self : IndexState) (journal : Journal) : IndexState :=
  match self.requestUndo with
  | some _ => { self with requestUndo := some journal }
  | none => { self with undo := journal }

section

variable (self : IndexState) (label : String) (names : List String)

def probe (key : UniqueKey) (exclude : Option NodeId) : Option UniqueProbe :=
  match self.maps.lookup (label,names) with
  | none => none
  | some map =>
    if map.answers key then
      some (match (map.holdersOf key).find? fun id => some id≠exclude with
        | some id => .conflict id
        | none => .noConflict)
    else none

def probeAll (key : UniqueKey) : Option (List NodeId) :=
  match self.maps.lookup (label,names) with
  | none => none
  | some map => if map.answers key then some (map.holdersOf key) else none

def fileEntry (map : ConstraintMap) (entry : NodeId × Properties) : ConstraintMap :=
  match encodeNodeKey names entry.2 with
  | some key => map.file entry.1 key
  | none => map

def populateInner (entries : List (NodeId × Properties)) (staged : Bool) : IndexState :=
  let identity := (label,names)
  let map := { entries.foldl (fileEntry names) .empty with complete := true }
  let state := { self with maps := self.maps.insert identity map }
  if staged then
    state.setJournal (state.journal.insert identity ⟨true,∅,∅⟩)
  else { state with
    undo := state.undo.erase identity
    requestUndo := state.requestUndo.map (·.erase identity) }

def populate (entries : List (NodeId × Properties)) : IndexState :=
  self.populateInner label names entries false

def populateStaged (entries : List (NodeId × Properties)) : IndexState :=
  self.populateInner label names entries true

/-- A key with its holder, or a confirmed miss. -/
abbrev Seed := UniqueKey × Option NodeId

def seedCommitted (map : ConstraintMap) (seed : Seed) : ConstraintMap :=
  if (map.holders.lookup seed.1).isSome||decide (seed.1∈map.knownMisses) then map
  else match seed.2 with
    | some id => map.rehome id (some seed.1)
    | none => map.addMiss seed.1

def seedCommittedKeys (entries : List Seed) : IndexState :=
  let map := (self.maps.lookup (label,names)).getD .empty
  if map.complete then self
  else { self with maps := self.maps.insert (label,names) (entries.foldl seedCommitted map) }

def seedStaged (state : ConstraintMap × ConstraintUndo) (seed : Seed) : ConstraintMap × ConstraintUndo :=
  let (map,rollback) := state
  if (map.holders.lookup seed.1).isSome||decide (seed.1∈map.knownMisses) then state
  else match seed.2 with
    | some id =>
      (map.rehome id (some seed.1),rollback.touch map id (some seed.1))
    | none =>
      (map.addMiss seed.1,if rollback.createdInBatch then rollback else rollback.noteMiss map seed.1)

/-- The entry a staged seeding starts from; a map that is not there yet is disposable. -/
def seedRollback (known : Option ConstraintMap) (entry : Option ConstraintUndo) : ConstraintUndo :=
  match known with
  | none => { entry.getD .empty with createdInBatch := true }
  | some _ => entry.getD .empty

def seedStagedKeys (entries : List Seed) : IndexState :=
  let identity := (label,names)
  let known := self.maps.lookup identity
  let map := known.getD .empty
  if map.complete then self
  else
    let seeded := entries.foldl seedStaged (map,seedRollback known (self.journal.lookup identity))
    { self with maps := self.maps.insert identity seeded.1 }.setJournal
      (self.journal.insert identity seeded.2)

end

/-- One map's share of a staged node mutation that leaves `id` with `newKey`. -/
def touchMap (newKey : ConstraintId → Option UniqueKey) (id : NodeId) (self : IndexState)
    (identity : ConstraintId) : IndexState :=
  match self.maps.lookup identity with
  | none => self
  | some map =>
    let rollback := (self.journal.lookup identity).getD .empty
    { self with maps := self.maps.insert identity (map.rehome id (newKey identity)) }.setJournal
      (self.journal.insert identity (rollback.touch map id (newKey identity)))

def touchMaps (self : IndexState) (id : NodeId) (newKey : ConstraintId → Option UniqueKey) : IndexState :=
  self.maps.keys.foldl (touchMap newKey id) self

def recordKey (labels : List String) (props : Properties) (identity : ConstraintId) : Option UniqueKey :=
  if identity.1 = "" ∨ identity.1∈labels then encodeNodeKey identity.2 props else none

def applyUpsert (self : IndexState) (id : NodeId) (labels : List String) (props : Properties) : IndexState :=
  self.touchMaps id (recordKey labels props)

def applyTombstone (self : IndexState) (id : NodeId) : IndexState :=
  self.touchMaps id fun _ => none

def commitStaged (self : IndexState) : IndexState :=
  { self with undo := ∅, requestUndo := none }

def beginRequest (self : IndexState) : IndexState :=
  { self with requestUndo := some ∅ }

def mergeEntry (undo : Journal) (entry : Sigma fun _ : ConstraintId => ConstraintUndo) : Journal :=
  match undo.lookup entry.1 with
  | none => undo.insert entry.1 entry.2
  | some batch => undo.insert entry.1 (batch.mergeFrom entry.2)

def mergeRequest (self : IndexState) : IndexState :=
  match self.requestUndo with
  | none => self
  | some request => { self with undo := request.entries.foldl mergeEntry self.undo, requestUndo := none }

def restoreMiss (map : ConstraintMap) (entry : Sigma fun _ : UniqueKey => Bool) : ConstraintMap :=
  if entry.2 then map.addMiss entry.1 else map.removeMiss entry.1

def restoreMap (rollback : ConstraintUndo) (map : ConstraintMap) : ConstraintMap :=
  let map := rollback.byNode.entries.foldl (fun map e => map.rehome e.1 e.2) map
  rollback.knownMisses.entries.foldl restoreMiss map

def restoreEntry (maps : AList fun _ : ConstraintId => ConstraintMap)
    (entry : Sigma fun _ : ConstraintId => ConstraintUndo) : AList fun _ : ConstraintId => ConstraintMap :=
  if entry.2.createdInBatch then maps.erase entry.1
  else match maps.lookup entry.1 with
    | none => maps
    | some map => maps.insert entry.1 (restoreMap entry.2 map)

def restore (maps : AList fun _ : ConstraintId => ConstraintMap) (undo : Journal) :
    AList fun _ : ConstraintId => ConstraintMap :=
  undo.entries.foldl restoreEntry maps

def rollbackRequest (self : IndexState) : IndexState :=
  match self.requestUndo with
  | none => self
  | some request => { self with maps := restore self.maps request, requestUndo := none }

def rollbackStaged (self : IndexState) : IndexState :=
  let self := self.rollbackRequest
  { self with maps := restore self.maps self.undo, undo := ∅ }

end IndexState
end NamiDB.Storage
