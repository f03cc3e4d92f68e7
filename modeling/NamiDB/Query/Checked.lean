import NamiDB.Query.Dangling
import NamiDB.Query.Rules
import NamiDB.Storage.UniqueIndexRun

/-! What the checks of a write establish: the index of the session answers as a scan would, so a probe finds every
conflict, and a record that passed its checks may be staged. -/
namespace NamiDB.Storage

def Schema.Requires (s : Schema) (label key : String) : Prop := ∃ d, s.label label=some d ∧ d.isRequired key=true

end NamiDB.Storage

namespace NamiDB.Query
open Storage Lib IndexState AList

/-- The schema checks the constraint: one property by its flag, more by a named constraint, in any order. -/
def Uniqueness.InSchema (u : Uniqueness) (s : Schema) : Prop :=
  (∃ p d, u.properties=[p] ∧ s.label u.label=some d ∧ d.isUnique p=true) ∨
    ∃ c ∈ s.constraints, 2≤c.properties.length ∧ c.label=u.label ∧ ∀ p, p∈c.properties ↔ p∈u.properties

structure Rules where
  unique : Uniqueness → Prop
  required : String → String → Prop

namespace Rules

variable (R : Rules)
variable {g : Graph} {id : NodeId}

def InSchema (s : Schema) : Prop :=
  (∀ u, R.unique u → u.InSchema s) ∧ ∀ label key, R.required label key → s.Requires label key

def Satisfied (g : Graph) : Prop :=
  (∀ u, R.unique u → u.Distinct g.nodes) ∧ ∀ label key, R.required label key → Filled label key g.nodes

def Allows (g : Graph) (id : NodeId) (labels : List String) (props : Properties) : Prop :=
  (∀ u, R.unique u → u.Admits g.nodes id labels props) ∧
    ∀ label key, R.required label key → label∈labels → Present props key

/-- `stored` is as good as `props` for the constraints. -/
def Kept (props stored : Properties) : Prop :=
  (∀ u, R.unique u → ∀ p ∈ u.properties, stored.lookup p=props.lookup p) ∧
    ∀ label key, R.required label key → Present props key → Present stored key

variable {R} {labels : List String}

theorem Allows.kept (h : R.Allows g id labels props) (hk : R.Kept props stored) : R.Allows g id labels stored :=
  ⟨fun u hu => (h.1 u hu).congr (hk.1 u hu),fun l k hr hl => hk.2 l k hr (h.2 l k hr hl)⟩

theorem Satisfied.upsertNode (h : R.Satisfied g) (ha : R.Allows g id labels props) :
    R.Satisfied (g.apply (.node id (some ⟨labels,props⟩))) :=
  ⟨fun u hu => (h.1 u hu).insert (ha.1 u hu),fun l k hr => (h.2 l k hr).insert (ha.2 l k hr)⟩

theorem Satisfied.tombstoneNode (h : R.Satisfied g) (id : NodeId) : R.Satisfied (g.apply (.node id none)) :=
  ⟨fun u hu => (h.1 u hu).erase,fun l k hr => (h.2 l k hr).erase⟩

theorem Satisfied.edge (h : R.Satisfied g) (key : EdgeKey) (properties : Option Properties) :
    R.Satisfied (g.apply (.edge key properties)) := by
  cases properties <;> exact h

end Rules

/-- The row's value of a node: a value without labels, or the node as it is in the overlay. -/
def Current (w : Writer) (n : NodeValue) : Prop :=
  n.labels=[] ∨ ∃ r, w.overlay.graph.nodes.lookup n.id=some r ∧ (∀ l ∈ n.labels, l∈r.labels) ∧
    ∀ k, n.properties.lookup k=r.props.lookup k

def VectorIndexDescriptor.Covers (desc : VectorIndexDescriptor) (labels : List String)
    (changed : Option (List String)) : Prop :=
  desc.label∈labels ∧ ∀ keys ∈ changed, desc.property∈keys

/-- The session as its index sees it. -/
def Writer.unique (self : Writer) : UniqueWriter where
  index := self.index
  overlay := self.overlay.graph.nodes
  staged := self.hasStagedNodeMutations
  committed := self.committed.graph.nodes
  mark := self.mark.map fun n => ((self.overlayAt n).graph.nodes,(self.pending.take n).any Mutation.isNode)

/-- What a request does to the index, apart from filling maps. -/
def Request.act : Request → Option UniqueWriter.Act
  | .upsertNode labels id properties => some (.applyUpsert id ⟨labels.dedup,storedProperties properties⟩)
  | .tombstoneNode id => some (.applyTombstone id)
  | .beginStagedRequest => some .beginRequest
  | .commitStagedRequest => some .mergeRequest
  | .rollbackStagedRequest => some .rollbackRequest
  | .commitBatch => some .commitStaged
  | .discardBatch => some .rollbackStaged
  | _ => none

/-- Where the writes of the source keep the constraints: the index is used as its callers should use it; the encoding
of a record keeps the constrained properties and what the index files; no unique property is a list that a vector
index turns into a vector; and a row holds the node that SET or REMOVE rewrites as it is. -/
def sound (R : Rules) (w : Writer) (o : Request) : Prop :=
  (∀ act ∈ o.act, w.unique.allowed act=true ∧ w.unique.careful act=true) ∧
    match o with
    | .upsertNode labels _ properties => R.Kept properties (storedProperties properties) ∧
      ∀ c, recordKey labels.dedup (storedProperties properties) c=recordKey labels.dedup properties c
    | .enter (.enforceVectorDims labels props changed) => ∀ u, R.unique u → ∀ desc ∈ w.vectorIndexes,
      VectorIndexDescriptor.Covers desc labels changed → desc.property∈u.properties →
        ∀ xs, props.lookup desc.property≠some (.list xs)
    | .enter (.untouchedTarget node) => Current w node
    | _ => True

/-- A reading operator fills and seeds maps as a caller of the index should. -/
def tended : Semantics Writer Reply := fun w o r w' => answers w o r w' ∧
  match o with
  | .read _ _ | .candidates _ _ _ => ∃ acts,
    UniqueWriter.run (fun w act => w.allowed act&&w.careful act) w.unique acts=some w'.unique
  | _ => True

namespace Checked

/-- Every graph of the session satisfies the constraints, the schema declares them, and the index is exact. -/
structure Inv (R : Rules) (w : Writer) : Prop where
  graphs : Holds R.Satisfied w
  schema : R.InSchema w.schema
  index : w.unique.Inv

variable {R : Rules} {w : Writer} {r : Reply o} {w' : Writer}

abbrev sem (R : Rules) : Semantics Writer Reply := guarded (sound R) tended

theorem sem_answers (h : sem R w o r w') : answers w o r w' := h.2.1

theorem schema_answers (h : answers w o r w') : w'.schema=w.schema := by
  cases o with
  | session => exact congrArg _ h.2
  | nodeId | checkDeadline | enter => exact congrArg _ (show w'=w from h)
  | read | candidates =>
    obtain ⟨index,rfl⟩ := h
    rfl
  | uniqueProbe label props exclude =>
    rcases h with ⟨-,rfl⟩ | ⟨-,rfl⟩
    · obtain ⟨index,hindex⟩ := w.uniqueProbe_snd label props exclude
      rw [hindex]
    · rfl
  | readOverlay | upsertNode | tombstoneNode | upsertEdge | tombstoneEdge | reopen =>
    rcases h with ⟨-,rfl⟩ | ⟨-,rfl⟩ <;> rfl
  | beginStagedRequest =>
    obtain rfl : w'=w.beginStagedRequest := h
    rfl
  | commitStagedRequest =>
    obtain rfl : w'=w.commitStagedRequest := h
    rfl
  | rollbackStagedRequest =>
    obtain rfl : w'=w.rollbackStagedRequest := h
    rfl
  | commitBatch => rcases h with ⟨-,-,rfl⟩ | ⟨-,rfl | ⟨-,rfl⟩⟩ <;> rfl
  | discardBatch =>
    obtain rfl : w'=w.discardBatch := h
    rfl

theorem unique_stage (h : Holds P w) (m : Mutation) (index : IndexState) : ({ w.stage m with index } : Writer).unique =
    ⟨index,(w.overlay.graph.apply m).nodes,w.hasStagedNodeMutations||m.isNode,w.unique.committed,w.unique.mark⟩ := by
  have hoverlay : (w.stage m).overlay.graph.nodes=(w.overlay.graph.apply m).nodes := by rw [Holds.overlay_stage]
  have hstaged : (w.stage m).hasStagedNodeMutations=(w.hasStagedNodeMutations||m.isNode) := by
    simp [Writer.hasStagedNodeMutations,Writer.stage]
  have hmark : (w.stage m).unique.mark=w.unique.mark := by
    refine Option.map_congr fun n hn => ?_
    rw [Writer.overlayAt,Writer.stage,List.take_append_of_le_length (h.marked n hn).1]
    rfl
  exact (UniqueWriter.mk.injEq ..).mpr ⟨rfl,hoverlay,hstaged,rfl,hmark⟩

theorem unique_edge (h : Holds P w) (key : EdgeKey) (properties : Option Properties) :
    (w.stage (.edge key properties)).unique=w.unique := by
  refine (unique_stage h (.edge key properties) w.index).trans ?_
  cases properties <;> exact (UniqueWriter.mk.injEq ..).mpr ⟨rfl,rfl,Bool.or_false _,rfl,rfl⟩

theorem inv_populated (h : w.unique.Inv) (label : String) (names : List String) :
    ({ w with index := w.populated label names } : Writer).unique.Inv := by
  unfold Writer.populated
  split
  · next hs => exact h.populateStaged hs
  · next hs => exact h.populate (Bool.not_eq_true _ |>.mp hs)

/-- A request leaves the index as exact as it found it. -/
theorem inv_unique (h : Inv R w) (hs : sem R w o r w') : w'.unique.Inv := by
  obtain ⟨⟨hact,hrest⟩,hans,hread⟩ := hs
  cases o with
  | session => exact hans.2 ▸ h.index
  | nodeId | checkDeadline | enter => exact (show w'=w from hans) ▸ h.index
  | readOverlay => rcases hans with ⟨-,rfl⟩ | ⟨-,rfl⟩ <;> exact h.index
  | read | candidates =>
    obtain ⟨acts,hrun⟩ := hread
    exact h.index.run hrun
  | uniqueProbe label props exclude =>
    rcases hans with ⟨-,rfl⟩ | ⟨-,rfl⟩
    · unfold Writer.uniqueProbe
      split
      · exact h.index
      · unfold Writer.probeKey
        split
        · exact h.index
        · exact inv_populated h.index label _
    · exact h.index
  | upsertNode labels id properties =>
    rcases hans with ⟨-,rfl⟩ | ⟨-,rfl⟩
    · have hstep := h.index.applyUpsert (hact _ rfl).2
      have hkeys : recordKey labels.dedup (storedProperties properties)=recordKey labels.dedup properties :=
        funext hrest.2
      rw [Writer.upsertNode,unique_stage h.graphs,applyUpsert,← hkeys,Mutation.isNode,Bool.or_true]
      exact hstep
    · exact h.index
  | tombstoneNode id =>
    rcases hans with ⟨-,rfl⟩ | ⟨-,rfl⟩
    · have hstep := h.index.applyTombstone id
      rw [Writer.tombstoneNode,unique_stage h.graphs,Mutation.isNode,Bool.or_true]
      exact hstep
    · exact h.index
  | upsertEdge key properties =>
    rcases hans with ⟨-,rfl⟩ | ⟨-,rfl⟩
    · rw [Writer.upsertEdge,unique_edge h.graphs]
      exact h.index
    · exact h.index
  | tombstoneEdge key =>
    rcases hans with ⟨-,rfl⟩ | ⟨-,rfl⟩
    · rw [Writer.tombstoneEdge,unique_edge h.graphs]
      exact h.index
    · exact h.index
  | beginStagedRequest =>
    obtain rfl : w'=w.beginStagedRequest := hans
    have hstep := h.index.step (hact _ rfl).1 (hact _ rfl).2
    have hsame : w.beginStagedRequest.unique=w.unique.step .beginRequest := by
      simp [Writer.unique,Writer.beginStagedRequest,UniqueWriter.step,Writer.overlayAt,Writer.overlay,
        Writer.hasStagedNodeMutations]
    rwa [hsame]
  | commitStagedRequest =>
    obtain rfl : w'=w.commitStagedRequest := hans
    exact h.index.mergeRequest (hact _ rfl).2
  | rollbackStagedRequest =>
    obtain rfl : w'=w.rollbackStagedRequest := hans
    have hsame : w.rollbackStagedRequest.unique=w.unique.step .rollbackRequest := by
      cases hm : w.mark <;> simp [Writer.unique,Writer.rollbackStagedRequest,UniqueWriter.step,Writer.overlayAt,
        Writer.overlay,Writer.hasStagedNodeMutations,hm]
    rw [hsame]
    exact h.index.rollbackRequest
  | commitBatch =>
    rcases hans with ⟨-,-,rfl⟩ | ⟨-,rfl | ⟨-,rfl⟩⟩
    · exact h.index.commitStaged
    · exact h.index
    · exact h.index
  | discardBatch =>
    obtain rfl : w'=w.discardBatch := hans
    exact h.index.rollbackStaged
  | reopen =>
    rcases hans with ⟨-,rfl⟩ | ⟨-,rfl⟩
    · exact .new w.durable.graph.nodes
    · exact h.index

theorem inv_of_holds (h : Inv R w) (hs : sem R w o r w') (hh : Holds R.Satisfied w') : Inv R w' :=
  ⟨hh,(schema_answers hs.2.1).symm ▸ h.schema,inv_unique h hs⟩

theorem quiet : Quiet (sem R) (Inv R) := fun o ho w r w' h hs =>
  inv_of_holds h hs (.quiet R.Satisfied (sound R) o ho w r w' h.graphs ⟨hs.1,hs.2.1⟩)

section

theorem does_upsertNode {id : NodeId} (h : Inv R w → R.Allows w.overlay.graph id labels props) :
    Does (sem R) (Inv R) (ask (.upsertNode labels id props)) (fun _ _ => True) (fun _ _ => True) w := by
  refine .request fun hI r w' hs => ⟨?_,trivial⟩
  have hallow := (h hI).kept hs.1.2.1
  have hdedup : R.Allows w.overlay.graph id labels.dedup (storedProperties props) :=
    ⟨fun u hu hl => hallow.1 u hu (List.mem_dedup.mp hl),fun l k hr hl => hallow.2 l k hr (List.mem_dedup.mp hl)⟩
  exact inv_of_holds hI hs
    (hI.1.succeeds ((hI.1.stage (hI.1.overlay.upsertNode hdedup)).with_index _) hs.2.1)

theorem tombstoneNode (id : NodeId) : Safe (sem R) (Inv R) (ask (.tombstoneNode id)) :=
  Safe.request fun _ _ _ h hs => inv_of_holds h hs
    (h.1.succeeds ((h.1.stage (h.1.overlay.tombstoneNode id)).with_index _) hs.2.1)

variable (key : EdgeKey)

theorem upsertEdge (properties : Properties) : Safe (sem R) (Inv R) (ask (.upsertEdge key properties)) :=
  Safe.request fun _ _ _ h hs => inv_of_holds h hs (h.1.succeeds (h.1.stage (h.1.overlay.edge key _)) hs.2.1)

theorem tombstoneEdge : Safe (sem R) (Inv R) (ask (.tombstoneEdge key)) :=
  Safe.request fun _ _ _ h hs => inv_of_holds h hs (h.1.succeeds (h.1.stage (h.1.overlay.edge key _)) hs.2.1)

end

section

variable {label : String} {exclude : Option NodeId} {props : List (String × Value)}

theorem mem_scanHolders_canonical {nodes : Overlay} :
    b∈nodes.scanHolders label (Writer.canonical props) ↔ b∈nodes.scanHolders label props := by
  have hholds : ∀ r : NodeRecord, Overlay.holdsValues (Writer.canonical props) r.props =
      Overlay.holdsValues props r.props := fun r => (List.perm_insertionSort _ props).all_eq
  simp [mem_scanHolders_iff,hholds]

/-- "No conflict" means that a scan finds nobody but `exclude`. -/
theorem uniqueProbe_noConflict (hinv : w.unique.Inv) (h : (w.uniqueProbe label props exclude).1 = .noConflict) :
    ∀ b ∈ w.overlay.graph.nodes.scanHolders label props, some b=exclude := by
  intro b hb
  rw [← mem_scanHolders_canonical] at hb
  unfold Writer.uniqueProbe at h
  split at h
  · cases h
  next key hkey =>
  unfold Writer.probeKey at h
  split at h
  · next answer hanswer =>
    obtain rfl : answer = .noConflict := h
    exact (hinv.probe_answersAs hkey hanswer b hb).symm
  · have hpopulated := inv_populated hinv label ((Writer.canonical props).map (·.1))
    cases hp : (w.populated label ((Writer.canonical props).map (·.1))).probe label
        ((Writer.canonical props).map (·.1)) key exclude with
    | none =>
      rw [hp] at h
      cases h
    | some answer =>
      obtain rfl : answer = .noConflict := by simpa [hp] using h
      exact (hpopulated.probe_answersAs hkey hp b hb).symm

end

section

variable {Expr : Type} (L : Language Expr)

def NoOther (w : Writer) (exclude : Option NodeId) (check : String × List (String × Value)) : Prop :=
  ∀ b ∈ w.overlay.graph.nodes.scanHolders check.1 check.2, some b=exclude

theorem does_findCompositeConflict (label : String) (props : List (String × Value)) (exclude : Option NodeId) :
    Does (sem R) (Inv R) (findCompositeConflict label props exclude)
      (fun r w' => SameButIndex w w' ∧ (r=none → NoOther w exclude (label,props))) (fun _ _ => True) w := by
  refine .bind (P := fun (r : Except ExecError UniqueProbe) w' => SameButIndex w w' ∧
    (r = .ok .noConflict → NoOther w exclude (label,props)))
    (.request fun hI r w' hs => ⟨quiet _ rfl w r w' hI hs,?_⟩) ?_
  · rcases hs.2.1 with ⟨rfl,rfl⟩ | ⟨⟨e,rfl⟩,rfl⟩
    · exact ⟨w.uniqueProbe_snd label props exclude,fun h => uniqueProbe_noConflict hI.index (Except.ok.inj h)⟩
    · exact ⟨.refl _,nofun⟩
  · rintro answer w' ⟨hsame,hnone⟩
    refine .bind (does_orFail (P := fun probe w'' => w''=w' ∧ answer = .ok probe)
      fun probe hp => ⟨rfl,hp⟩) ?_
    rintro probe w'' ⟨rfl,hanswer⟩
    cases probe with
    | conflict id => exact .ret ⟨hsame,nofun⟩
    | noConflict => exact .ret ⟨hsame,fun _ => hnone hanswer⟩
    | unindexable =>
      refine does_readOverlay sem_answers quiet (.ret ⟨hsame,fun hfind b hb => ?_⟩)
      obtain ⟨index,rfl⟩ := hsame
      simpa using List.find?_eq_none.mp hfind b hb

theorem does_rejectConflicts (exclude : Option NodeId) (message : String → List (String × Value) → String)
    (checks : List (String × List (String × Value))) : Does (sem R) (Inv R) (rejectConflicts exclude message checks)
      (fun _ w' => SameButIndex w w' ∧ ∀ check ∈ checks, NoOther w exclude check) (fun _ _ => True) w := by
  refine .forM (fun done w' => SameButIndex w w' ∧ ∀ check ∈ done, NoOther w exclude check)
    (fun done check w' h => ?_) checks ⟨.refl w,fun _ h => absurd h List.not_mem_nil⟩
  refine .bind (does_findCompositeConflict check.1 check.2 exclude) fun conflict w'' hfind => ?_
  cases conflict with
  | some id => exact .fail trivial
  | none =>
    refine .ret ⟨h.1.trans hfind.1,List.forall_mem_append.mpr ⟨h.2,List.forall_mem_singleton.mpr ?_⟩⟩
    obtain ⟨⟨index,rfl⟩,-⟩ := h
    exact hfind.2 rfl

theorem does_checks (checks : Schema → List (String × List (String × Value))) (exclude : Option NodeId)
    (message : String → List (String × Value) → String)
    (hf : ∀ w', SameButIndex w w' → (∀ check ∈ checks w.schema, NoOther w exclude check) →
      Does (sem R) (Inv R) (f ()) P (fun _ _ => True) w') :
    Does (sem R) (Inv R) ((ask .session >>= fun s => rejectConflicts exclude message (checks s.schema)) >>= f) P
      (fun _ _ => True) w := by
  refine .bind (P := fun _ w' => SameButIndex w w' ∧ ∀ check ∈ checks w.schema, NoOther w exclude check)
    (.bind (does_session sem_answers quiet) ?_) fun _ w' h => hf w' h.1 h.2
  rintro _ w' ⟨rfl,rfl⟩
  exact does_rejectConflicts exclude message _

theorem does_notnull
    (hf : notNullViolation w.schema labels props=none → Does (sem R) (Inv R) (f ()) P (fun _ _ => True) w) :
    Does (sem R) (Inv R) (enforceNotnullOnCreate labels props >>= f) P (fun _ _ => True) w := by
  refine .bind (P := fun _ w' => w'=w ∧ notNullViolation w.schema labels props=none)
    (.bind (does_session sem_answers quiet) ?_) ?_
  · rintro _ w' ⟨rfl,rfl⟩
    cases hv : notNullViolation w'.schema labels props with
    | none => exact .ret ⟨rfl,rfl⟩
    | some message => exact .fail trivial
  · rintro _ w' ⟨rfl,hv⟩
    exact hf hv

end

section

variable {labels : List String} {changed : Option (List String)} {props props' : Properties}

/-- The value at `key` was a list and is a vector, for one of the indexes. -/
def Densified (descs : List VectorIndexDescriptor) (labels : List String) (changed : Option (List String))
    (props props' : Properties) (key : String) : Prop :=
  (∃ xs, props.lookup key=some (.list xs)) ∧ (∃ floats, props'.lookup key=some (.vec floats)) ∧
    ∃ desc ∈ descs, desc.property=key ∧ VectorIndexDescriptor.Covers desc labels changed

theorem coerced_cases (v : Value) : coerced v=v ∨ (∃ xs, v = .list xs) ∧ ∃ floats, coerced v = .vec floats := by
  cases v with
  | list xs =>
    cases h : numericListToF32 xs with
    | none => exact .inl (by simp [coerced,h])
    | some floats => exact .inr ⟨⟨xs,rfl⟩,floats,by simp [coerced,h]⟩
  | _ => exact .inl rfl

theorem lookup_enforceVectorDim (h : enforceVectorDim labels changed props desc = .ok props') (key : String) :
    props'.lookup key=props.lookup key ∨ Densified [desc] labels changed props props' key := by
  unfold enforceVectorDim at h
  split at h
  · cases h
    exact .inl rfl
  next hcovers =>
  split at h
  · cases h
    exact .inl rfl
  next v hv =>
  -- every branch but the last one either fails or changes nothing
  repeat' split at h
  all_goals cases h
  · exact .inl rfl
  by_cases hkey : key=desc.property
  · subst hkey
    rw [lookup_insert,hv]
    rcases coerced_cases v with heq | ⟨⟨xs,rfl⟩,floats,hf⟩
    · exact .inl (congrArg some heq)
    · refine .inr ⟨⟨xs,hv⟩,⟨floats,by rw [lookup_insert,hf]⟩,desc,List.mem_singleton_self _,rfl,?_⟩
      rw [not_or,not_not] at hcovers
      refine ⟨hcovers.1,fun keys hkeys => ?_⟩
      rw [Option.mem_def.mp hkeys] at hcovers
      simpa using hcovers.2
  · exact .inl (lookup_insert_ne hkey)

theorem lookup_enforceVectorDims (h : descs.foldlM (enforceVectorDim labels changed) props = .ok props')
    (key : String) : props'.lookup key=props.lookup key ∨ Densified descs labels changed props props' key := by
  induction descs generalizing props with
  | nil =>
    cases h
    exact .inl rfl
  | cons desc descs ih =>
    rw [List.foldlM_cons] at h
    cases hone : enforceVectorDim labels changed props desc with
    | error e =>
      rw [hone] at h
      cases h
    | ok mid =>
      rw [hone] at h
      rcases ih h with hlater | ⟨⟨xs,hxs⟩,hvec,desc',hdesc',hcover⟩
      · rcases lookup_enforceVectorDim hone key with hnow | ⟨hlist,⟨floats,hf⟩,desc',hdesc',hcover⟩
        · exact .inl (hlater.trans hnow)
        · rw [List.mem_singleton.mp hdesc'] at hcover
          exact .inr ⟨hlist,⟨floats,hlater.trans hf⟩,desc,.head _,hcover⟩
      · rcases lookup_enforceVectorDim hone key with hnow | ⟨-,⟨floats,hf⟩,-⟩
        · exact .inr ⟨⟨xs,hnow.symm.trans hxs⟩,hvec,desc',.tail _ hdesc',hcover⟩
        · cases hf.symm.trans hxs

theorem does_vectorDims
    (hf : ∀ stored, R.Kept props stored → Does (sem R) (Inv R) (f stored) P (fun _ _ => True) w) :
    Does (sem R) (Inv R) (enforceVectorDims labels props changed >>= f) P (fun _ _ => True) w := by
  refine .bind (P := fun stored w' => w'=w ∧ R.Kept props stored) (.bind (P := fun _ w' => w'=w ∧
    sound R w (.enter (.enforceVectorDims labels props changed)))
    (.request fun hI r w' hs => ⟨quiet _ rfl w r w' hI hs,hs.2.1,hs.1⟩) ?_) ?_
  · rintro _ w' ⟨rfl,hok⟩
    refine .bind (does_session sem_answers quiet) ?_
    rintro _ w'' ⟨rfl,rfl⟩
    refine does_orFail fun stored hstored => ⟨rfl,fun u hu p hp => ?_,fun l k _ hpresent => ?_⟩
    · rcases lookup_enforceVectorDims hstored p with h | ⟨⟨xs,hxs⟩,-,desc,hdesc,rfl,hcovers⟩
      · exact h
      · exact absurd hxs (hok.2 u hu desc hdesc hcovers hp xs)
    · rcases lookup_enforceVectorDims hstored k with h | ⟨-,⟨floats,hvec⟩,-⟩
      · obtain ⟨v,hv,hnull⟩ := hpresent
        exact ⟨v,h.trans hv,hnull⟩
      · exact ⟨_,hvec,rfl⟩
  · rintro stored w' ⟨rfl,hkept⟩
    exact hf stored hkept

end

theorem does_refreshTarget (row : Row) (targetAlias : String) :
    Does (sem R) (Inv R) (refreshStagedWriteTarget row targetAlias)
      (fun row' w' => w'=w ∧ ∀ n, row' targetAlias=some (.node n) → Current w n) (fun _ _ => True) w := by
  unfold refreshStagedWriteTarget
  split
  · next node hnode =>
    refine .bind (does_session sem_answers quiet) ?_
    rintro _ w' ⟨rfl,rfl⟩
    cases hst : w'.stagedNode node.id with
    | untouched =>
      refine .bind (P := fun _ w'' => w''=w' ∧ Current w' node)
        (.request fun hI r w'' hs => ⟨quiet _ rfl w' r w'' hI hs,hs.2.1,hs.1.2⟩) ?_
      rintro _ w'' ⟨rfl,hcurrent⟩
      refine .ret ⟨rfl,fun n hn => ?_⟩
      rw [hnode] at hn
      cases hn
      exact hcurrent
    | tombstone => exact .fail trivial
    | upsert view =>
      obtain ⟨hid,hlookup⟩ := lookup_of_upsert hst
      refine .ret ⟨rfl,fun n hn => .inr ?_⟩
      have hsync : row.synchronizeNodeBindings view targetAlias=some (.node view) := by
        simp [Row.synchronizeNodeBindings,hnode,hid]
      rw [hsync] at hn
      cases hn
      exact ⟨_,hid ▸ hlookup,fun _ h => h,fun _ => rfl⟩
  · next rel hrel =>
    refine .bind (does_session sem_answers quiet) ?_
    rintro _ w' ⟨rfl,rfl⟩
    cases w'.stagedEdge ⟨rel.edgeType,rel.src,rel.dst⟩ with
    | untouched => exact .ret ⟨rfl,fun n hn => by rw [hrel] at hn; cases hn⟩
    | tombstone => exact .fail trivial
    | upsert view =>
      refine .ret ⟨rfl,fun n hn => ?_⟩
      simp only [Row.synchronizeRelBindings,hrel] at hn
      split at hn <;> cases hn
  · next hother _ => exact .ret ⟨rfl,fun n hn => absurd hn (hother n)⟩

end Checked
end NamiDB.Query
