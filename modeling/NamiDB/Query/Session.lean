import Mathlib.Data.List.Dedup
import Mathlib.Data.List.Induction
import Mathlib.Data.List.Sort
import NamiDB.Lib.Solo
import NamiDB.Query.Value

/-! The writer session as a statement sees it: the committed graph, the batch staged over it, and the requests
that the executor and the server send. -/
namespace NamiDB.Query
open Storage Lib

structure EdgeKey where
  edgeType : String
  src : NodeId
  dst : NodeId
  deriving DecidableEq

abbrev Edges := AList fun _ : EdgeKey => Properties

structure Graph where
  nodes : Overlay
  edges : Edges

/-- A staged record; `none` is a tombstone. -/
inductive Mutation where
  | node (id : NodeId) (record : Option NodeRecord)
  | edge (key : EdgeKey) (properties : Option Properties)

def Mutation.isNode : Mutation → Bool
  | .node _ _ => true
  | .edge _ _ => false

def Mutation.edgeType : Mutation → Option String
  | .node _ _ => none
  | .edge key _ => some key.edgeType

namespace Graph

def apply (self : Graph) : Mutation → Graph
  | .node id (some record) => { self with nodes := self.nodes.insert id record }
  | .node id none => { self with nodes := self.nodes.erase id }
  | .edge key (some properties) => { self with edges := self.edges.insert key properties }
  | .edge key none => { self with edges := self.edges.erase key }

def outEdges (self : Graph) (edgeType : String) (node : NodeId) : List EdgeKey :=
  self.edges.keys.filter fun key => key.edgeType=edgeType ∧ key.src=node

def inEdges (self : Graph) (edgeType : String) (node : NodeId) : List EdgeKey :=
  self.edges.keys.filter fun key => key.edgeType=edgeType ∧ key.dst=node

def scanNodes (self : Graph) (label : String) : List NodeValue :=
  (self.nodes.entries.filter fun e => Overlay.carries e.2 label).map fun e => ⟨e.1,e.2.labels,e.2.props⟩

end Graph

/-- A graph with the edge types that its memtable and its SST scopes show. -/
structure Base where
  graph : Graph
  edgeTypes : List String
  typed : ∀ key ∈ graph.edges, key.edgeType∈edgeTypes
  distinct : edgeTypes.Nodup

theorem typed_empty : ∀ key ∈ (∅ : Edges), key.edgeType∈([] : List String) :=
  fun _ h => absurd h (AList.notMem_empty _)

theorem typed_apply {graph : Graph} (m : Mutation) (h : ∀ key ∈ graph.edges, key.edgeType∈edgeTypes) :
    ∀ key ∈ (graph.apply m).edges, key.edgeType∈(edgeTypes++m.edgeType.toList).dedup := by
  intro key hkey
  rw [List.mem_dedup,List.mem_append]
  cases m with
  | node id record => cases record <;> exact .inl (h key hkey)
  | edge k properties =>
    cases properties with
    | none => exact .inl (h key (AList.mem_erase.mp hkey).2)
    | some ps =>
      rcases (AList.mem_insert _).mp hkey with rfl | hkey
      · exact .inr (by simp [Mutation.edgeType])
      · exact .inl (h key hkey)

def Base.apply (self : Base) (m : Mutation) : Base :=
  ⟨self.graph.apply m,(self.edgeTypes++m.edgeType.toList).dedup,typed_apply m self.typed,List.nodup_dedup _⟩

def Base.applyAll (self : Base) (ms : List Mutation) : Base := ms.foldl Base.apply self

theorem Base.applyAll_snoc (self : Base) (ms : List Mutation) (m : Mutation) :
    (self.applyAll (ms++[m])).graph=(self.applyAll ms).graph.apply m := by
  rw [applyAll,List.foldl_append]
  rfl

theorem Base.mem_edgeTypes_applyAll (self : Base) (ms : List Mutation) (h : t∈(self.applyAll ms).edgeTypes) :
    t∈self.edgeTypes++ms.filterMap Mutation.edgeType := by
  induction ms generalizing self with
  | nil => simpa [applyAll] using h
  | cons m ms ih =>
    have hm : (self.apply m).edgeTypes=(self.edgeTypes++m.edgeType.toList).dedup := rfl
    have hin := ih (self.apply m) h
    rw [hm,List.mem_append,List.mem_dedup,List.mem_append] at hin
    rw [List.filterMap_cons,List.mem_append]
    cases hedge : m.edgeType with
    | none => simpa [hedge] using hin
    | some edgeType => simpa [hedge,or_assoc] using hin

/-- `committed` is what the session builds on and `durable` what the published manifest holds; they differ only
after a commit whose outcome the session did not learn. `mark` is the length of the batch when the open request
began. -/
structure Writer where
  schema : Schema
  vectorIndexes : List VectorIndexDescriptor
  committed : Base
  durable : Base
  poisoned : Bool
  pending : List Mutation
  mark : Option Nat
  index : IndexState

def SameButIndex (w w' : Writer) : Prop := ∃ index, w'={ w with index }

theorem SameButIndex.refl (w : Writer) : SameButIndex w w := ⟨w.index,rfl⟩

theorem SameButIndex.trans {w w' w'' : Writer} (h : SameButIndex w w') (h' : SameButIndex w' w'') :
    SameButIndex w w'' := by
  obtain ⟨i,rfl⟩ := h
  obtain ⟨j,rfl⟩ := h'
  exact ⟨j,rfl⟩

inductive StagedValue (α : Type) where
  | untouched
  | tombstone
  | upsert (view : α)

namespace Writer

/-- Committed state plus the surviving staged operations. -/
def overlay (self : Writer) : Base := self.committed.applyAll self.pending

def overlayAt (self : Writer) (n : Nat) : Base := self.committed.applyAll (self.pending.take n)

def stagedNode (self : Writer) (id : NodeId) : StagedValue NodeValue :=
  match self.pending.reverse.find? fun
    | .node n _ => n=id
    | .edge _ _ => false with
  | some (.node _ (some record)) => .upsert ⟨id,record.labels,record.props⟩
  | some (.node _ none) => .tombstone
  | _ => .untouched

def stagedEdge (self : Writer) (key : EdgeKey) : StagedValue RelValue :=
  match self.pending.reverse.find? fun
    | .node _ _ => false
    | .edge k _ => k=key with
  | some (.edge _ (some properties)) => .upsert ⟨key.edgeType,key.src,key.dst,properties⟩
  | some (.edge _ none) => .tombstone
  | _ => .untouched

def hasStagedNodeMutations (self : Writer) : Bool := self.pending.any Mutation.isNode

def observedEdgeTypes (self : Writer) : List String :=
  (self.schema.edgeTypes.map (·.name)++self.committed.edgeTypes ++
    self.pending.filterMap Mutation.edgeType).dedup.insertionSort fun a b => a≤b

theorem mem_observedEdgeTypes (self : Writer) (h : key∈self.overlay.graph.edges) :
    key.edgeType∈self.observedEdgeTypes := by
  have htyped := self.overlay.typed key h
  rw [observedEdgeTypes,List.mem_insertionSort,List.mem_dedup,List.append_assoc]
  exact List.mem_append_right _ (self.committed.mem_edgeTypes_applyAll self.pending htyped)

def stage (self : Writer) (m : Mutation) : Writer := { self with pending := self.pending++[m] }

/-- The record is staged as its encoding keeps it; the index files the one that was handed in. -/
def upsertNode (self : Writer) (labels : List String) (id : NodeId) (properties : Properties) : Writer :=
  { self.stage (.node id (some ⟨labels.dedup,storedProperties properties⟩)) with
    index := self.index.applyUpsert id labels.dedup properties }

def tombstoneNode (self : Writer) (id : NodeId) : Writer :=
  { self.stage (.node id none) with index := self.index.applyTombstone id }

def upsertEdge (self : Writer) (key : EdgeKey) (properties : Properties) : Writer :=
  self.stage (.edge key (some (jsonProperties properties)))

def tombstoneEdge (self : Writer) (key : EdgeKey) : Writer := self.stage (.edge key none)

def canonical (props : List (String × Value)) : List (String × Value) :=
  props.insertionSort fun a b => a.1≤b.1

/-- A scan of the overlay fills the map; it is disposable once a node mutation is staged. -/
def populated (self : Writer) (label : String) (names : List String) : IndexState :=
  let views := self.overlay.graph.nodes.scanLabel label
  if self.hasStagedNodeMutations then self.index.populateStaged label names views
  else self.index.populate label names views

/-- The first probe of a constraint populates its map. -/
def probeKey (self : Writer) (label : String) (names : List String) (key : UniqueKey) (exclude : Option NodeId) :
    UniqueProbe × Writer :=
  match self.index.probe label names key exclude with
  | some answer => (answer,self)
  | none => (((self.populated label names).probe label names key exclude).getD .unindexable,
      { self with index := self.populated label names })

def uniqueProbe (self : Writer) (label : String) (props : List (String × Value)) (exclude : Option NodeId) :
    UniqueProbe × Writer :=
  match encodeProbeKey ((canonical props).map (·.2)) with
  | none => (.unindexable,self)
  | some key => self.probeKey label ((canonical props).map (·.1)) key exclude

theorem uniqueProbe_snd (self : Writer) (label : String) (props : List (String × Value)) (exclude : Option NodeId) :
    SameButIndex self (self.uniqueProbe label props exclude).2 := by
  unfold uniqueProbe
  split
  · exact ⟨_,rfl⟩
  · unfold probeKey
    split <;> exact ⟨_,rfl⟩

def beginStagedRequest (self : Writer) : Writer :=
  { self with mark := some self.pending.length, index := self.index.beginRequest }

def commitStagedRequest (self : Writer) : Writer :=
  { self with mark := none, index := self.index.mergeRequest }

def rollbackStagedRequest (self : Writer) : Writer :=
  { self with
    pending := self.pending.take (self.mark.getD self.pending.length)
    mark := none
    index := self.index.rollbackRequest }

def discardBatch (self : Writer) : Writer :=
  { self with pending := [], mark := none, index := self.index.rollbackStaged }

def committedBatch (self : Writer) : Writer :=
  { self with
    committed := self.overlay
    durable := self.overlay
    pending := []
    mark := none
    index := self.index.commitStaged }

/-- The batch is in the manifest and the session does not know it. -/
def lostCommit (self : Writer) : Writer := { self with durable := self.overlay, poisoned := true }

def reopen (self : Writer) : Writer :=
  { self with committed := self.durable, poisoned := false, pending := [], mark := none, index := .new }

end Writer

section

inductive Entity where
  | node (id : NodeId)
  | rel (key : EdgeKey)
  deriving DecidableEq

def entity : RuntimeValue → Option Entity
  | .node n => some (.node n.id)
  | .rel r => some (.rel ⟨r.edgeType,r.src,r.dst⟩)
  | _ => none

def Graph.read (self : Graph) : Entity → Option RuntimeValue
  | .node id => (self.nodes.lookup id).map fun r => .node ⟨id,r.labels,r.props⟩
  | .rel key => (self.edges.lookup key).map fun properties => .rel ⟨key.edgeType,key.src,key.dst,properties⟩

def Mutation.entity : Mutation → Entity
  | .node id _ => .node id
  | .edge key _ => .rel key

def Mutation.value : Mutation → Option RuntimeValue
  | .node id record => record.map fun r => .node ⟨id,r.labels,r.props⟩
  | .edge key properties => properties.map fun ps => .rel ⟨key.edgeType,key.src,key.dst,ps⟩

theorem read_apply (g : Graph) (m : Mutation) (k : Entity) :
    (g.apply m).read k=if m.entity=k then m.value else g.read k := by
  cases m with
  | node id record =>
    cases k with
    | node n =>
      by_cases hn : id=n
      · subst hn
        cases record <;> simp [Graph.apply,Graph.read,Mutation.entity,Mutation.value]
      · cases record <;> simp [Graph.apply,Graph.read,Mutation.entity,hn,AList.lookup_insert_ne (Ne.symm hn),
          AList.lookup_erase_ne (Ne.symm hn)]
    | rel key => cases record <;> simp [Graph.apply,Graph.read,Mutation.entity]
  | edge key properties =>
    cases k with
    | node n => cases properties <;> simp [Graph.apply,Graph.read,Mutation.entity]
    | rel j =>
      by_cases hj : key=j
      · subst hj
        cases properties <;> simp [Graph.apply,Graph.read,Mutation.entity,Mutation.value]
      · cases properties <;> simp [Graph.apply,Graph.read,Mutation.entity,hj,AList.lookup_insert_ne (Ne.symm hj),
          AList.lookup_erase_ne (Ne.symm hj)]

theorem entity_of_read {g : Graph} (h : g.read k=some v) : entity v=some k := by
  cases k <;> obtain ⟨x,-,rfl⟩ := Option.map_eq_some_iff.mp h <;> rfl

def Writer.staged (self : Writer) (k : Entity) : StagedValue RuntimeValue :=
  match self.pending.reverse.find? fun m => decide (m.entity=k) with
  | some m => m.value.elim .tombstone .upsert
  | none => .untouched

/-- What is there with the staged value over it. -/
def StagedValue.over {α : Type} : StagedValue α → Option α → Option α
  | .untouched, old => old
  | .tombstone, _ => none
  | .upsert view, _ => some view

def StagedValue.map {α β : Type} (f : α → β) : StagedValue α → StagedValue β
  | .untouched => .untouched
  | .tombstone => .tombstone
  | .upsert view => .upsert (f view)

theorem staged_node (w : Writer) (id : NodeId) : w.staged (.node id)=(w.stagedNode id).map .node := by
  unfold Writer.staged Writer.stagedNode
  induction w.pending.reverse with
  | nil => rfl
  | cons m ms ih =>
    cases m with
    | node n record =>
      by_cases hn : n=id
      · subst hn
        cases record <;> simp [Mutation.entity,Mutation.value,StagedValue.map]
      · simpa [Mutation.entity,hn] using ih
    | edge key properties => simpa [Mutation.entity] using ih

theorem staged_rel (w : Writer) (key : EdgeKey) : w.staged (.rel key)=(w.stagedEdge key).map .rel := by
  unfold Writer.staged Writer.stagedEdge
  induction w.pending.reverse with
  | nil => rfl
  | cons m ms ih =>
    cases m with
    | node n record => simpa [Mutation.entity] using ih
    | edge k properties =>
      by_cases hk : k=key
      · subst hk
        cases properties <;> simp [Mutation.entity,Mutation.value,StagedValue.map]
      · simpa [Mutation.entity,hk] using ih

variable {w : Writer} {id : NodeId} {view : NodeValue}

theorem read_overlay (w : Writer) (k : Entity) :
    w.overlay.graph.read k=(w.staged k).over (w.committed.graph.read k) := by
  unfold Writer.staged Writer.overlay
  induction w.pending using List.reverseRecOn with
  | nil => rfl
  | append_singleton ms m ih =>
    rw [List.reverse_append,List.reverse_singleton,List.singleton_append,Base.applyAll_snoc,read_apply]
    by_cases hm : m.entity=k
    · rw [List.find?_cons_of_pos (by simpa using hm),if_pos hm]
      cases hv : m.value <;> simp [hv,StagedValue.over]
    · rw [List.find?_cons_of_neg (by simpa using hm),if_neg hm]
      exact ih

theorem lookup_of_upsert (h : w.stagedNode id = .upsert view) :
    view.id=id ∧ w.overlay.graph.nodes.lookup id=some ⟨view.labels,view.properties⟩ := by
  have hread := read_overlay w (.node id)
  rw [staged_node,h] at hread
  obtain ⟨r,hr,heq⟩ := Option.map_eq_some_iff.mp hread
  cases heq
  exact ⟨rfl,hr⟩

theorem lookup_of_untouched (h : w.stagedNode id = .untouched) :
    w.overlay.graph.nodes.lookup id=w.committed.graph.nodes.lookup id := by
  have hread := read_overlay w (.node id)
  rw [staged_node,h] at hread
  refine Option.map_injective (fun r r' heq => ?_) hread
  cases r
  cases r'
  cases heq
  rfl

end

inductive ExecError where
  | eval (message : String)
  | storage
  | runtime (message : String)
  | constraint (message : String)
  | timeout
  | cancelled
  | limit
  deriving DecidableEq

/-- The calls that other results refer to; entering one is an event of the run and has no effect. -/
inductive Call where
  | enforceVectorDims (labels : List String) (props : Properties) (changed : Option (List String))
  | untouchedTarget (node : NodeValue)

/-- `read` is an operator that only reads: it gets the rows of its input. `candidates` is a batch of point
lookups. Both may leave more in the index. -/
inductive Request where
  | session
  | readOverlay
  | nodeId
  | checkDeadline
  | read (operator : String) (input : List Row)
  | candidates (label property : String) (keys : List String)
  | uniqueProbe (label : String) (props : List (String × Value)) (exclude : Option NodeId)
  | upsertNode (labels : List String) (id : NodeId) (properties : Properties)
  | tombstoneNode (id : NodeId)
  | upsertEdge (key : EdgeKey) (properties : Properties)
  | tombstoneEdge (key : EdgeKey)
  | enter (call : Call)
  | beginStagedRequest
  | commitStagedRequest
  | rollbackStagedRequest
  | commitBatch
  | discardBatch
  | reopen

@[reducible] def Reply : Request → Type
  | .session => Writer
  | .readOverlay => Except ExecError Graph
  | .nodeId => NodeId
  | .checkDeadline => Except ExecError Unit
  | .read _ _ => Except ExecError (List Row)
  | .candidates _ _ _ => Except ExecError (List (Option NodeValue))
  | .uniqueProbe _ _ _ => Except ExecError UniqueProbe
  | .upsertNode _ _ _ => Except ExecError Unit
  | .tombstoneNode _ => Except ExecError Unit
  | .upsertEdge _ _ => Except ExecError Unit
  | .tombstoneEdge _ => Except ExecError Unit
  | .enter _ => Unit
  | .beginStagedRequest => Unit
  | .commitStagedRequest => Unit
  | .rollbackStagedRequest => Unit
  | .commitBatch => Except ExecError Unit
  | .discardBatch => Unit
  | .reopen => Except ExecError Unit

/-- `done` happened, or the request failed and nothing did. -/
def succeeds {α : Type} (w : Writer) (a : α) (done : Writer) (r : Except ExecError α) (w' : Writer) : Prop :=
  r = .ok a ∧ w'=done ∨ (∃ e, r = .error e) ∧ w'=w

/-- What a request may answer. Rows, candidates and new identifiers are whatever they are. -/
def answers : Semantics Writer Reply := fun w o r w' =>
  match o, r with
  | .session, r => r=w ∧ w'=w
  | .readOverlay, r => succeeds w w.overlay.graph w r w'
  | .nodeId, _ => w'=w
  | .checkDeadline, _ => w'=w
  | .read _ _, _ => ∃ index, w'={ w with index }
  | .candidates _ _ _, _ => ∃ index, w'={ w with index }
  | .uniqueProbe label props exclude, r =>
    succeeds w (w.uniqueProbe label props exclude).1 (w.uniqueProbe label props exclude).2 r w'
  | .upsertNode labels id properties, r => succeeds w () (w.upsertNode labels id properties) r w'
  | .tombstoneNode id, r => succeeds w () (w.tombstoneNode id) r w'
  | .upsertEdge key properties, r => succeeds w () (w.upsertEdge key properties) r w'
  | .tombstoneEdge key, r => succeeds w () (w.tombstoneEdge key) r w'
  | .enter _, _ => w'=w
  | .beginStagedRequest, _ => w'=w.beginStagedRequest
  | .commitStagedRequest, _ => w'=w.commitStagedRequest
  | .rollbackStagedRequest, _ => w'=w.rollbackStagedRequest
  | .commitBatch, r =>
    (w.poisoned=false ∧ r = .ok () ∧ w'=w.committedBatch) ∨
      (∃ e, r = .error e) ∧ (w'=w ∨ w.poisoned=false ∧ w'=w.lostCommit)
  | .discardBatch, _ => w'=w.discardBatch
  | .reopen, r => succeeds w () w.reopen r w'

/-- One way to answer: nothing fails, a reading operator finds no rows, and `id` is the new identifier. -/
def Writer.answer (self : Writer) (id : NodeId) : (o : Request) → Reply o × Writer
  | .session => (self,self)
  | .readOverlay => (.ok self.overlay.graph,self)
  | .nodeId => (id,self)
  | .checkDeadline => (.ok (),self)
  | .read _ _ => (.ok [],self)
  | .candidates _ _ keys => (.ok (keys.map fun _ => none),self)
  | .uniqueProbe label props exclude =>
    (.ok (self.uniqueProbe label props exclude).1,(self.uniqueProbe label props exclude).2)
  | .upsertNode labels id properties => (.ok (),self.upsertNode labels id properties)
  | .tombstoneNode id => (.ok (),self.tombstoneNode id)
  | .upsertEdge key properties => (.ok (),self.upsertEdge key properties)
  | .tombstoneEdge key => (.ok (),self.tombstoneEdge key)
  | .enter _ => ((),self)
  | .beginStagedRequest => ((),self.beginStagedRequest)
  | .commitStagedRequest => ((),self.commitStagedRequest)
  | .rollbackStagedRequest => ((),self.rollbackStagedRequest)
  | .commitBatch => if self.poisoned then (.error .storage,self) else (.ok (),self.committedBatch)
  | .discardBatch => ((),self.discardBatch)
  | .reopen => (.ok (),self.reopen)

theorem Writer.answer_answers (self : Writer) (id : NodeId) (o : Request) :
    answers self o (self.answer id o).1 (self.answer id o).2 := by
  cases o with
  | session => exact ⟨rfl,rfl⟩
  | nodeId | checkDeadline | enter | beginStagedRequest | commitStagedRequest | rollbackStagedRequest | discardBatch =>
    rfl
  | read | candidates => exact ⟨_,rfl⟩
  | commitBatch =>
    unfold answer
    cases hp : self.poisoned with
    | true => exact .inr ⟨⟨_,rfl⟩,.inl rfl⟩
    | false => exact .inl ⟨hp,rfl,rfl⟩
  | _ => exact .inl ⟨rfl,rfl⟩

abbrev ExecM := ExceptT ExecError (Prog Reply)

def ask (o : Request) : ExecM (Reply o) := ExceptT.lift (Prog.request o)

def orFail {α : Type} (r : Except ExecError α) : ExecM α := ExceptT.mk (pure r)

end NamiDB.Query
