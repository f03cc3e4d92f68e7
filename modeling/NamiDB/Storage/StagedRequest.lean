import NamiDB.Storage.Memtable
import NamiDB.Storage.UniqueIndex

/-! The batch a writer stages requests into, one after the other: a failed request is rolled back alone. -/
namespace NamiDB.Storage

/-- The first value that a staged record gave a property declared without a type: label and property, and the
value's type. -/
structure Observation where
  record : Nat
  key : String × String
  dataType : DataType
  deriving DecidableEq

abbrev CommittedTypes := AList fun _ : String × String => DataType

/-- `watch` has the pairs of the source's map from a label to its waiting properties. -/
structure PendingTypes where
  version : Option Nat := none
  watch : List (String × String) := []
  staged : List Observation := []
  committed : CommittedTypes := ∅
  deriving DecidableEq

def given (properties : Properties) (property : String) : Bool :=
  match properties.lookup property with
  | none | some .null => false
  | some _ => true

def Schema.typePending (self : Schema) : List (String × String) :=
  self.labels.flatMap fun d => (d.properties.filter (·.typePending)).map fun p => (d.name,p.name)

namespace PendingTypes
variable (self t : PendingTypes) (current : Manifest)

def seen (key : String × String) : Bool :=
  decide (key∈self.committed)||self.staged.any (·.key==key)

def derived (schema : Schema) : List (String × String) := schema.typePending.filter (!self.seen ·)

def refresh : PendingTypes :=
  if self.version=some current.version then self
  else { self with version := some current.version, watch := self.derived current.schema }

def watching : Bool := !self.watch.isEmpty

/-- A value of no scalar type decides too, for text. -/
def observeLabel (index : Nat) (properties : Properties) (self : PendingTypes) (label : String) : PendingTypes :=
  let (observed,watch) := self.watch.partition fun k => k.1=label&&given properties k.2
  { self with watch, staged := self.staged++observed.map fun k =>
      ⟨index,k,((properties.lookup k.2).bind valueDatatype).getD .utf8⟩ }

def observe (index : Nat) (labels : List String) (properties : Properties) : PendingTypes :=
  let t := self.refresh current
  if t.watching then labels.foldl (observeLabel index properties) t else t

def rollbackTo (records : Nat) : PendingTypes :=
  let staged := self.staged.filter fun o => decide (o.record<records)
  -- the dropped properties are waiting again
  { self with staged, version := if staged.length≠self.staged.length then none else self.version }

def commitOne (committed : CommittedTypes) (o : Observation) : CommittedTypes :=
  if o.key∈committed then committed else committed.insert o.key o.dataType

def commit : PendingTypes :=
  { self with staged := [], committed := self.staged.foldl commitOne self.committed }

/-- Whether resolving the committed observations changes the schema. -/
def applies (schema : Schema) : Bool := schema.typePending.any fun k => decide (k∈self.committed)

/-- The watch list of the manifest's version is the one its schema gives. -/
def Derived : Prop :=
  (∀ v∈self.version, v≤current.version) ∧
    (self.version=some current.version → self.watch=self.derived current.schema)

/-- What observing adds: `t'` has further staged observations, of records that satisfy `P`. -/
def Adds (current : Manifest) (P : Nat → Prop) (t t' : PendingTypes) : Prop :=
  t'.Derived current ∧ t'.committed=t.committed ∧ ∃ new, t'.staged=t.staged++new ∧ ∀ o∈new, P o.record

variable {self t current} {index : Nat} {properties : Properties} {label : String} {P : Nat → Prop}

theorem refresh_eq (h : self.Derived current) : self.refresh current=
    { self with version := some current.version, watch := self.derived current.schema } := by
  rw [refresh]
  split_ifs with hv
  · rw [← h.2 hv,← hv]
  · rfl

theorem refresh_congr (h : self.Derived current) (ht : t.Derived current) (hs : self.staged=t.staged)
    (hc : self.committed=t.committed) : self.refresh current=t.refresh current := by
  simp only [refresh_eq h,refresh_eq ht,derived,seen,hs,hc]

theorem seen_observeLabel (k : String × String) : (observeLabel index properties self label).seen k=true ↔
    self.seen k=true ∨ k∈self.watch ∧ k.1=label ∧ given properties k.2=true := by
  simp [seen,observeLabel,or_assoc]

theorem watch_observeLabel (hw : self.watch=self.derived schema) :
    (observeLabel index properties self label).watch=(observeLabel index properties self label).derived schema := by
  have hpart : (observeLabel index properties self label).watch=
      (self.derived schema).filter fun k => !(k.1=label&&given properties k.2) := by
    rw [← hw]
    simp [observeLabel,Function.comp_def]
  rw [hpart,derived,derived,List.filter_filter]
  refine List.filter_congr fun k hk => ?_
  -- a pending property that was not seen was on the watch list
  rw [Bool.eq_iff_iff]
  simp only [Bool.and_eq_true,Bool.not_eq_true',← Bool.not_eq_true,seen_observeLabel,hw,derived,List.mem_filter,hk,
    true_and,decide_eq_true_eq]
  tauto

theorem Adds.refl (h : t.Derived current) : Adds current P t t := ⟨h,rfl,[],by simp,by simp⟩

theorem Adds.trans (h : Adds current P self t) (h' : Adds current P t t') : Adds current P self t' := by
  obtain ⟨-,hc,new,hs,hn⟩ := h
  obtain ⟨hd,hc',new',hs',hn'⟩ := h'
  exact ⟨hd,hc'.trans hc,new++new',by rw [hs',hs,List.append_assoc],List.forall_mem_append.mpr ⟨hn,hn'⟩⟩

theorem Adds.mono (h : Adds current P self t) (hPQ : ∀ i, P i → Q i) : Adds current Q self t :=
  let ⟨hd,hc,new,hs,hn⟩ := h
  ⟨hd,hc,new,hs,fun o ho => hPQ _ (hn o ho)⟩

theorem Adds.before (h : Adds current (·<n) self t) (hs : ∀ o∈self.staged, o.record<n) :
    ∀ o∈t.staged, o.record<n := by
  obtain ⟨-,-,new,ht,hn⟩ := h
  rw [ht]
  exact List.forall_mem_append.mpr ⟨hs,hn⟩

theorem Adds.refresh (h : self.Derived current) : Adds current P self (self.refresh current) := by
  rw [refresh_eq h]
  exact ⟨⟨by simp,fun _ => rfl⟩,rfl,[],by simp,by simp⟩

theorem Adds.observeLabel (h : self.Derived current) (hv : self.version=some current.version) :
    Adds current (·=index) self (PendingTypes.observeLabel index properties self label) := by
  refine ⟨⟨h.1,fun _ => watch_observeLabel (h.2 hv)⟩,rfl,_,rfl,fun o ho => ?_⟩
  obtain ⟨k,-,rfl⟩ := List.mem_map.mp ho
  rfl

theorem Adds.observe (h : self.Derived current) (index : Nat) (labels : List String) (properties : Properties) :
    Adds current (·=index) self (self.observe current index labels properties) := by
  have hr : Adds current (·=index) self (self.refresh current) := .refresh h
  rw [PendingTypes.observe]
  split_ifs
  · exact (List.foldlRecOn labels (PendingTypes.observeLabel index properties)
      (motive := fun t : PendingTypes => t.version=some current.version ∧ Adds current (·=index) self t)
      ⟨by rw [refresh_eq h],hr⟩ fun t ht l _ => ⟨ht.1,ht.2.trans (.observeLabel ht.2.1 ht.1)⟩).2
  · exact hr

theorem Derived.rollbackTo (h : self.Derived current) (n : Nat) : (self.rollbackTo n).Derived current := by
  unfold PendingTypes.rollbackTo
  dsimp only
  split_ifs with hn
  · exact ⟨by simp,by simp⟩
  · rwa [List.filter_sublist.eq_of_length (not_not.mp hn)]

theorem mem_foldl_commitOne (os : List Observation) (c : CommittedTypes) (k : String × String) :
    k∈os.foldl commitOne c ↔ k∈c ∨ ∃ o∈os, o.key=k := by
  induction os generalizing c with
  | nil => simp
  | cons o os ih =>
    rw [List.foldl_cons,ih,List.exists_mem_cons_iff,← or_assoc]
    refine or_congr ?_ Iff.rfl
    unfold commitOne
    split_ifs with hm
    · exact ⟨Or.inl,fun h => h.elim id fun h => h ▸ hm⟩
    · rw [AList.mem_insert,or_comm,eq_comm]

theorem Derived.commit (h : self.Derived current) : self.commit.Derived current := by
  refine ⟨h.1,fun hv => (h.2 hv).trans (List.filter_congr fun k _ => ?_)⟩
  rw [Bool.eq_iff_iff]
  simp [seen,PendingTypes.commit,mem_foldl_commitOne]

theorem Derived.cleared (h : self.Derived current) (ha : ¬self.applies current.schema=true) :
    { self with committed := ∅ : PendingTypes }.Derived current := by
  refine ⟨h.1,fun hv => (h.2 hv).trans (List.filter_congr fun k hk => ?_)⟩
  have hc : k∉self.committed := fun hmem => ha (List.any_eq_true.mpr ⟨k,hk,decide_eq_true hmem⟩)
  simp [seen,hc]

/-- A version that the writer moves to has not been looked at. -/
theorem Derived.next {next : Manifest} (h : self.Derived current) (hn : current.version<next.version)
    (c : CommittedTypes) : { self with committed := c : PendingTypes }.Derived next :=
  ⟨fun v hv => Nat.le_trans (h.1 v hv) (Nat.le_of_lt hn),fun hv => absurd (h.1 _ hv) (by omega)⟩

end PendingTypes

/-- The caches of a session, its unique-value index and the property types it observes for DDL are
left out; none of them decides what is written or read. -/
structure WriterSession where
  fence : WriterFence
  current : LoadedManifest
  memtable : Memtable
  publishedMemtable : Memtable
  nextLsn : Lsn
  durableLsn : Lsn
  nextWalSeq : Nat
  pending : WalSegment
  pendingPayloads : List (MemKey × Lsn × MemOp)
  stagedMemtable : Memtable
  pendingNodeMutations : Bool
  labelDict : List String
  autoSnapshotEvery : Nat
  commitsSinceSnapshot : Nat
  droppedBatches : Nat
  poisoned : Bool

structure StagedSession extends WriterSession where
  pendingTypes : PendingTypes

structure StageMark where
  records : Nat
  payloads : Nat
  nodeMutations : Bool

def replay (payloads : List (MemKey × Lsn × MemOp)) : Memtable :=
  payloads.foldl (fun m e => m.apply e.1 e.2.1 e.2.2) ∅

/-- A write of the batch; `payload` is what the record encodes to, if it does. -/
inductive Write where
  | upsertNodeWithLabels (labels : List String) (id : NodeId) (properties : Properties) (payload : Option Bytes)
  | tombstoneNode (id : NodeId)
  | upsertEdge (edgeType : String) (src dst : NodeId) (payload : Option Bytes)
  | tombstoneEdge (edgeType : String) (src dst : NodeId)

namespace Write

def labels : Write → List String
  | upsertNodeWithLabels labels _ _ _ => labels
  | _ => []

def entry (lsn : Lsn) : Write → Option WalEntry
  | upsertNodeWithLabels _ id _ payload => payload.map (⟨.node id,.upsert ·,lsn⟩)
  | tombstoneNode id => some ⟨.node id,.tombstone,lsn⟩
  | upsertEdge edgeType src dst payload => payload.map (⟨.edge edgeType src dst,.upsert ·,lsn⟩)
  | tombstoneEdge edgeType src dst => some ⟨.edge edgeType src dst,.tombstone,lsn⟩

end Write

namespace StagedSession
variable (encodes : WalEntry → Bool) (decode : Bytes → Option (List String × Properties)) (self : StagedSession)

def beginStagedRequest : StageMark :=
  ⟨self.pending.records.length,self.pendingPayloads.length,self.pendingNodeMutations⟩

def rollbackStagedRequest (mark : StageMark) : StagedSession :=
  { self with
    pending := { self.pending with records := self.pending.records.take mark.records }
    pendingPayloads := self.pendingPayloads.take mark.payloads
    pendingNodeMutations := mark.nodeMutations
    stagedMemtable := replay (self.pendingPayloads.take mark.payloads)
    pendingTypes := self.pendingTypes.rollbackTo mark.records }

def discardBatch : StagedSession :=
  { self with
    droppedBatches :=
      if 0<self.pending.records.length then min (self.droppedBatches+1) (2^64-1) else self.droppedBatches
    pending := .new self.pending.seq
    pendingPayloads := []
    stagedMemtable := ∅
    pendingNodeMutations := false
    pendingTypes := self.pendingTypes.rollbackTo 0 }

def appendPending (entry : WalEntry) : Option StagedSession :=
  if encodes entry then some { self with
    pending := { self.pending with records := self.pending.records++[⟨entry.lsn,some entry⟩] }
    pendingPayloads := self.pendingPayloads++[(entry.key,entry.lsn,entry.op)]
    pendingNodeMutations := self.pendingNodeMutations||(entry.key matches .node _)
    stagedMemtable := self.stagedMemtable.apply entry.key entry.lsn entry.op }
  else none

def intern (dict : List String) (name : String) : List String :=
  if name∈dict then dict else dict++[name]

/-- The names of a record's labels come back in the order of their ids. -/
def observeRecord (labels : List String) (properties : Properties) : StagedSession :=
  { self with
    pendingTypes := self.pendingTypes.observe self.current.manifest (self.pending.records.length-1)
      (self.labelDict.filter (·∈labels)) properties }

/-- A write that cannot be encoded has taken its LSN. -/
def stage (write : Write) : StagedSession :=
  let lsn := self.nextLsn
  let next := { self with nextLsn := min (lsn+1) (2^64-1), labelDict := write.labels.foldl intern self.labelDict }
  match (write.entry lsn).bind (next.appendPending encodes), write with
  | some s, .upsertNodeWithLabels labels _ properties _ => s.observeRecord labels properties
  | some s, _ => s
  | none, _ => next

/-- What `commit_batch` leaves once the batch is durable at WAL sequence `seq`. -/
def commitBatch (seq : Nat) (committed : LoadedManifest) : StagedSession :=
  { self with
    memtable := self.pendingPayloads.foldl (fun m e => m.apply e.1 e.2.1 e.2.2) self.memtable
    pendingPayloads := []
    stagedMemtable := ∅
    pendingNodeMutations := false
    pending := .new (seq+1)
    current := committed
    nextWalSeq := seq+1
    pendingTypes := self.pendingTypes.commit }

/-- Ends at the first payload that does not decode, and when nothing waits any more. -/
def observeRows (current : Manifest) : List ((MemKey × Lsn × MemOp) × Nat) → PendingTypes → PendingTypes
  | ((.node _,_,.upsert payload),i)::rows, t =>
    match decode payload with
    | some (labels,properties) =>
      let t := t.observe current i labels properties
      if t.watching then observeRows current rows t else t
    | none => t
  | _::rows, t => observeRows current rows t
  | [], t => t

def observeStagedPendingTypes : StagedSession :=
  let t := self.pendingTypes.refresh self.current.manifest
  { self with
    pendingTypes := if self.pendingPayloads=[] then self.pendingTypes
      else if t.watching then observeRows decode self.current.manifest self.pendingPayloads.zipIdx t else t }

def commitSchemaDdl (committed : LoadedManifest) : StagedSession :=
  ({ self with current := committed } : StagedSession).observeStagedPendingTypes decode

/-- The flush publishes the schema only when an observed type changes it. -/
def resolvePendingTypes (committed : LoadedManifest) : StagedSession :=
  { self with
    current := if self.pendingTypes.applies self.current.manifest.schema then committed else self.current
    pendingTypes := { self.pendingTypes with committed := ∅ } }

/-- A session at open: the replayed rows are durable, so no index of theirs is kept. -/
def opened (session : WriterSession) : StagedSession :=
  { session with
    pendingTypes := (observeRows decode session.current.manifest
      (session.memtable.entries.map fun e => (e.1,e.2.lsn,e.2.op)).zipIdx {}).commit }

/-- The states of a writer's batch. A mark may have been taken at any of them. -/
inductive Reachable : StagedSession → Prop
  | opened (session : WriterSession) : session.pending.records=[] → session.pendingPayloads=[] →
      session.stagedMemtable=∅ → Reachable (opened decode session)
  | stage {s : StagedSession} (write : Write) : Reachable s → Reachable (s.stage encodes write)
  | rollbackStagedRequest {s t : StagedSession} : Reachable s → Reachable t →
      Reachable (s.rollbackStagedRequest t.beginStagedRequest)
  | discardBatch {s : StagedSession} : Reachable s → Reachable s.discardBatch
  | commitBatch {s : StagedSession} (seq : Nat) (committed : LoadedManifest) : Reachable s →
      s.current.manifest.version<committed.manifest.version → Reachable (s.commitBatch seq committed)
  | commitSchemaDdl {s : StagedSession} (committed : LoadedManifest) : Reachable s →
      s.current.manifest.version<committed.manifest.version → Reachable (s.commitSchemaDdl decode committed)
  | resolvePendingTypes {s : StagedSession} (committed : LoadedManifest) : Reachable s →
      s.current.manifest.version<committed.manifest.version → Reachable (s.resolvePendingTypes committed)

structure Inv (s : StagedSession) : Prop where
  memtable : s.stagedMemtable=replay s.pendingPayloads
  length : s.pendingPayloads.length=s.pending.records.length
  derived : s.pendingTypes.Derived s.current.manifest
  before : ∀ o∈s.pendingTypes.staged, o.record<s.pending.records.length

/-- What staging does to a batch. -/
structure Extends (s t : StagedSession) : Prop where
  inv : t.Inv
  seq : t.pending.seq=s.pending.seq
  records : s.pending.records<+:t.pending.records
  payloads : s.pendingPayloads<+:t.pendingPayloads
  current : t.current=s.current
  types : PendingTypes.Adds s.current.manifest (s.pending.records.length≤·) s.pendingTypes t.pendingTypes

variable {encodes decode self} {s t : StagedSession}

theorem Extends.trans (h : Extends s t) (h' : Extends t u) : Extends s u where
  inv := h'.inv
  seq := h'.seq.trans h.seq
  records := h.records.trans h'.records
  payloads := h.payloads.trans h'.payloads
  current := h'.current.trans h.current
  types := h.types.trans (h.current ▸ h'.types.mono fun _ => Nat.le_trans h.records.length_le)

theorem Extends.alloc (h : s.Inv) (lsn : Lsn) (dict : List String) :
    Extends s { s with nextLsn := lsn, labelDict := dict } :=
  ⟨⟨h.memtable,h.length,h.derived,h.before⟩,rfl,List.prefix_rfl,List.prefix_rfl,rfl,.refl h.derived⟩

theorem Extends.appendPending (h : s.Inv) (ha : s.appendPending encodes entry=some t) :
    Extends s t ∧ t.pending.records.length=s.pending.records.length+1 := by
  rw [StagedSession.appendPending] at ha
  split_ifs at ha
  obtain rfl := Option.some.inj ha
  refine ⟨⟨⟨?_,?_,h.derived,fun o ho => ?_⟩,rfl,List.prefix_append _ _,List.prefix_append _ _,rfl,.refl h.derived⟩,?_⟩
  · simp [replay,List.foldl_append,h.memtable]
  · simp [h.length]
  · simpa using Nat.lt_succ_of_lt (h.before o ho)
  · simp

theorem Extends.observeRecord (hu : Extends u s) (hp : s.pending.records.length=u.pending.records.length+1)
    (labels : List String) (properties : Properties) : Extends u (s.observeRecord labels properties) := by
  have h := hu.inv
  have ha := PendingTypes.Adds.observe h.derived (s.pending.records.length-1) (s.labelDict.filter (·∈labels)) properties
  refine ⟨⟨h.memtable,h.length,ha.1,fun o ho => ?_⟩,hu.seq,hu.records,hu.payloads,hu.current,
    hu.types.trans (hu.current ▸ ha.mono fun i hi => by omega)⟩
  exact (ha.mono fun i hi => by omega).before h.before o ho

theorem Extends.stage (h : s.Inv) (write : Write) : Extends s (s.stage encodes write) := by
  have hnext := Extends.alloc h (min (s.nextLsn+1) (2^64-1)) (write.labels.foldl intern s.labelDict)
  unfold StagedSession.stage
  dsimp only
  cases ha : (write.entry s.nextLsn).bind (StagedSession.appendPending encodes _) with
  | none => exact hnext
  | some t =>
    obtain ⟨entry,-,ha⟩ := Option.bind_eq_some_iff.mp ha
    obtain ⟨ht,hl⟩ := Extends.appendPending hnext.inv ha
    cases write with
    | upsertNodeWithLabels labels id properties payload => exact hnext.trans (ht.observeRecord hl labels properties)
    | tombstoneNode _ | upsertEdge _ _ _ _ | tombstoneEdge _ _ _ => exact hnext.trans ht

theorem observeRows_adds {t : PendingTypes} (ht : t.Derived current) (hP : ∀ r∈rows, P r.2) :
    PendingTypes.Adds current P t (observeRows decode current rows t) := by
  fun_induction observeRows decode current rows t with
  | case1 _ _ _ i rows t labels properties _ t' _ ih =>
    have ha := (PendingTypes.Adds.observe ht i labels properties).mono fun _ hi => hi ▸ hP _ List.mem_cons_self
    exact ha.trans (ih ha.1 fun r hr => hP r (by simp [hr]))
  | case2 _ _ _ i rows t labels properties =>
    exact (PendingTypes.Adds.observe ht i labels properties).mono fun _ hi => hi ▸ hP _ List.mem_cons_self
  | case3 => exact .refl ht
  | case4 _ rows t _ ih => exact ih ht fun r hr => hP r (by simp [hr])
  | case5 => exact .refl ht

theorem Inv.observeStagedPendingTypes (h : s.Inv) : (s.observeStagedPendingTypes decode).Inv := by
  have ha : PendingTypes.Adds s.current.manifest (·<s.pending.records.length) s.pendingTypes
      (s.observeStagedPendingTypes decode).pendingTypes := by
    have hr := PendingTypes.Adds.refresh (P := (·<s.pending.records.length)) h.derived
    unfold StagedSession.observeStagedPendingTypes
    dsimp only
    split_ifs
    · exact .refl h.derived
    · refine hr.trans (observeRows_adds hr.1 fun r hr => ?_)
      simpa [h.length] using List.snd_lt_of_mem_zipIdx hr
    · exact hr
  exact ⟨h.memtable,h.length,ha.1,ha.before h.before⟩

theorem Reachable.inv (h : Reachable encodes decode s) : s.Inv := by
  induction h with
  | opened session hr hp hm =>
    refine ⟨by simp [StagedSession.opened,hm,hp,replay],by simp [StagedSession.opened,hr,hp],?_,by
      simp [StagedSession.opened,PendingTypes.commit]⟩
    exact (observeRows_adds (P := fun _ => True) ⟨by simp,by simp⟩ fun _ _ => trivial).1.commit
  | stage write _ ih => exact (Extends.stage ih write).inv
  | rollbackStagedRequest _ _ ih iht =>
    refine ⟨rfl,?_,ih.derived.rollbackTo _,fun o ho => ?_⟩
    · simp [StagedSession.rollbackStagedRequest,beginStagedRequest,ih.length,iht.length]
    · obtain ⟨ho,hlt⟩ := List.mem_filter.mp ho
      show o.record<(List.take _ _).length
      rw [List.length_take]
      exact Nat.lt_min.mpr ⟨of_decide_eq_true hlt,ih.before o ho⟩
  | discardBatch _ ih =>
    exact ⟨rfl,rfl,ih.derived.rollbackTo 0,by simp [StagedSession.discardBatch,PendingTypes.rollbackTo]⟩
  | commitBatch seq committed _ hv ih => exact ⟨rfl,rfl,ih.derived.commit.next hv _,by
      simp [StagedSession.commitBatch,PendingTypes.commit]⟩
  | commitSchemaDdl committed _ hv ih =>
    exact .observeStagedPendingTypes ⟨ih.memtable,ih.length,ih.derived.next hv _,ih.before⟩
  | resolvePendingTypes committed _ hv ih =>
    refine ⟨ih.memtable,ih.length,?_,ih.before⟩
    unfold StagedSession.resolvePendingTypes
    dsimp only
    split_ifs with ha
    · exact ih.derived.next hv _
    · exact ih.derived.cleared ha

/-- The watch list is a cache of the schema: it is read after a refresh only. -/
theorem staged_request_rolled_back (h : Reachable encodes decode s) (writes : List Write) :
    s.stagedMemtable = replay s.pendingPayloads ∧
      let r := (writes.foldl (stage encodes) s).rollbackStagedRequest s.beginStagedRequest
      r.pending = s.pending ∧ r.pendingPayloads = s.pendingPayloads ∧
        r.stagedMemtable = s.stagedMemtable ∧ r.pendingNodeMutations = s.pendingNodeMutations ∧
        r.pendingTypes.staged = s.pendingTypes.staged ∧ r.pendingTypes.committed = s.pendingTypes.committed ∧
        r.pendingTypes.refresh r.current.manifest = s.pendingTypes.refresh s.current.manifest := by
  have hs := h.inv
  refine ⟨hs.memtable,?_⟩
  have he : Extends s (writes.foldl (stage encodes) s) :=
    List.foldlRecOn writes (stage encodes) (.alloc hs s.nextLsn s.labelDict) fun t ht w _ => ht.trans (.stage ht.inv w)
  generalize writes.foldl (stage encodes) s = t at he
  obtain ⟨hd,hc,new,hn,hnew⟩ := he.types
  have hp : t.pendingPayloads.take s.pendingPayloads.length=s.pendingPayloads :=
    (List.prefix_iff_eq_take.mp he.payloads).symm
  have hstaged : (t.pendingTypes.rollbackTo s.pending.records.length).staged=s.pendingTypes.staged := by
    simp only [PendingTypes.rollbackTo,hn,List.filter_append]
    rw [List.filter_eq_self.mpr fun o ho => decide_eq_true (hs.before o ho),
      List.filter_eq_nil_iff.mpr fun o ho => by simpa using hnew o ho,List.append_nil]
  refine ⟨?_,hp,(congrArg replay hp).trans hs.memtable.symm,rfl,hstaged,hc,?_⟩
  · show WalSegment.mk _ _=_
    rw [he.seq]
    exact congrArg (WalSegment.mk _) (List.prefix_iff_eq_take.mp he.records).symm
  · show (t.pendingTypes.rollbackTo _).refresh t.current.manifest=_
    rw [he.current]
    exact PendingTypes.refresh_congr (hd.rollbackTo _) hs.derived hstaged hc

/-- The type of `age` is decided by the first person who has one. -/
def untyped : WriterSession where
  fence := ⟨1,1⟩
  current := ⟨⟨0,1,.manifestVersion 0⟩,{ Manifest.empty 1 1 0 with
    schema.labels := [⟨"Person",[{ name := "age", dataType := .utf8, nullable := true, typePending := true }]⟩] }⟩
  memtable := ∅
  publishedMemtable := ∅
  nextLsn := 1
  durableLsn := 0
  nextWalSeq := 0
  pending := .new 0
  pendingPayloads := []
  stagedMemtable := ∅
  pendingNodeMutations := false
  labelDict := []
  autoSnapshotEvery := 0
  commitsSinceSnapshot := 0
  droppedBatches := 0
  poisoned := false

/-- The second write cannot be encoded, and so the request fails. -/
def failing : List Write :=
  [.upsertNodeWithLabels ["Person"] 7 ((∅ : Properties).insert "age" (.i64 30)) (some []),.upsertEdge "KNOWS" 7 8 none]

theorem failing_rolled_back : let s := opened (fun _ => none) untyped
    (failing.foldl (stage fun _ => true) s).pendingTypes.staged = [⟨0,("Person","age"),.int64⟩] ∧
      ((failing.foldl (stage fun _ => true) s).rollbackStagedRequest s.beginStagedRequest).pendingTypes.staged = [] :=
  ⟨by decide,(staged_request_rolled_back (.opened untyped rfl rfl rfl) failing).2.2.2.2.2.1⟩

end StagedSession
end NamiDB.Storage
