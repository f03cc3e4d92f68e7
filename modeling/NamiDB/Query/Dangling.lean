import NamiDB.Query.Walk

/-! Edges and their endpoints: a commit leaves no edge without its nodes, as long as relationships are written
between live nodes. -/
namespace NamiDB.Query
open Storage Lib AList

/-- `P` holds of every graph that the session can go on with: the committed one, the published one, the one with
the staged batch, and the one a rollback of the open request returns to. -/
structure Holds (P : Graph → Prop) (w : Writer) : Prop where
  committed : P w.committed.graph
  durable : P w.durable.graph
  overlay : P w.overlay.graph
  marked : ∀ n ∈ w.mark, n≤w.pending.length ∧ P (w.overlayAt n).graph

namespace Holds

variable {P : Graph → Prop} {w : Writer}

theorem overlay_stage (w : Writer) (m : Mutation) : (w.stage m).overlay.graph=w.overlay.graph.apply m :=
  w.committed.applyAll_snoc w.pending m

section
variable (h : Holds P w)
include h

theorem stage {m : Mutation} (hm : P (w.overlay.graph.apply m)) : Holds P (w.stage m) where
  committed := h.committed
  durable := h.durable
  overlay := by rwa [overlay_stage]
  marked n hn := by
    obtain ⟨hle,hP⟩ := h.marked n hn
    have htake : (w.pending++[m]).take n=w.pending.take n := by rw [List.take_append_of_le_length hle]
    refine ⟨hle.trans (by simp [Writer.stage]),?_⟩
    rw [Writer.overlayAt,Writer.stage,htake]
    exact hP

theorem with_index (index : IndexState) : Holds P { w with index } := ⟨h.1,h.2,h.3,h.4⟩

theorem discardBatch : Holds P w.discardBatch :=
  ⟨h.committed,h.durable,h.committed,nofun⟩

theorem reopen : Holds P w.reopen := ⟨h.durable,h.durable,h.durable,nofun⟩

theorem rollbackStagedRequest : Holds P w.rollbackStagedRequest := by
  refine ⟨h.committed,h.durable,?_,nofun⟩
  cases hm : w.mark with
  | none => simpa [Writer.overlay,Writer.rollbackStagedRequest,hm] using h.overlay
  | some n => simpa [Writer.overlay,Writer.overlayAt,Writer.rollbackStagedRequest,hm] using (h.marked n hm).2

theorem succeeds {α : Type} {a : α} {done w' : Writer} {r : Except ExecError α} (hd : Holds P done)
    (hs : succeeds w a done r w') : Holds P w' := by
  rcases hs with ⟨-,rfl⟩ | ⟨-,rfl⟩
  · exact hd
  · exact h

theorem uniqueProbe (label : String) (props : List (String × Value)) (exclude : Option NodeId) :
    Holds P (w.uniqueProbe label props exclude).2 := by
  obtain ⟨index,hindex⟩ := w.uniqueProbe_snd label props exclude
  rw [hindex]
  exact h.with_index index

end

theorem quiet (P : Graph → Prop) (ok : Writer → Request → Prop) : Quiet (guarded ok answers) (Holds P) := by
  intro o ho w r w' h hs
  have hs := hs.2
  cases o with
  | session => exact hs.2 ▸ h
  | readOverlay => exact h.succeeds h hs
  | nodeId | checkDeadline | enter => exact (hs : w'=w) ▸ h
  | read | candidates =>
    obtain ⟨index,rfl⟩ := hs
    exact h.with_index index
  | uniqueProbe label props exclude => exact h.succeeds (h.uniqueProbe label props exclude) hs
  | upsertNode | tombstoneNode | upsertEdge | tombstoneEdge => cases ho
  | beginStagedRequest =>
    rw [show w'=w.beginStagedRequest from hs]
    refine ⟨h.committed,h.durable,h.overlay,?_⟩
    rintro n ⟨⟩
    exact ⟨Nat.le_refl _,by simpa [Writer.overlayAt,Writer.beginStagedRequest,Writer.overlay] using h.overlay⟩
  | commitStagedRequest => exact (show w'=w.commitStagedRequest from hs) ▸ ⟨h.1,h.2,h.3,fun _ hm => by cases hm⟩
  | rollbackStagedRequest => exact (show w'=w.rollbackStagedRequest from hs) ▸ h.rollbackStagedRequest
  | commitBatch =>
    rcases hs with ⟨-,-,rfl⟩ | ⟨-,rfl | ⟨-,rfl⟩⟩
    · exact ⟨h.overlay,h.overlay,h.overlay,fun _ hm => by cases hm⟩
    · exact h
    · exact ⟨h.committed,h.overlay,h.overlay,h.marked⟩
  | discardBatch => exact (show w'=w.discardBatch from hs) ▸ h.discardBatch
  | reopen => exact h.succeeds h.reopen hs

end Holds

def EdgeKey.Touches (key : EdgeKey) (node : NodeId) : Prop := key.src=node ∨ key.dst=node

def Graph.NoDangling (g : Graph) : Prop := ∀ key ∈ g.edges, key.src∈g.nodes ∧ key.dst∈g.nodes

namespace Graph

variable {g : Graph} {key : EdgeKey}

theorem NoDangling.upsertNode (h : g.NoDangling) (id : NodeId) (record : NodeRecord) :
    (g.apply (.node id (some record))).NoDangling := fun key hkey =>
  ⟨(mem_insert _).mpr (.inr (h key hkey).1),(mem_insert _).mpr (.inr (h key hkey).2)⟩

theorem NoDangling.tombstoneEdge (h : g.NoDangling) (key : EdgeKey) : (g.apply (.edge key none)).NoDangling :=
  fun k hk => h k (mem_erase.mp hk).2

theorem NoDangling.upsertEdge (h : g.NoDangling) (hsrc : key.src∈g.nodes) (hdst : key.dst∈g.nodes)
    (properties : Properties) : (g.apply (.edge key (some properties))).NoDangling := by
  intro k hk
  rcases (mem_insert _).mp hk with rfl | hk
  · exact ⟨hsrc,hdst⟩
  · exact h k hk

theorem NoDangling.tombstoneNode (h : g.NoDangling) {id : NodeId} (hid : ∀ key ∈ g.edges, ¬key.Touches id) :
    (g.apply (.node id none)).NoDangling := fun key hkey =>
  ⟨mem_erase.mpr ⟨fun he => hid key hkey (.inl he),(h key hkey).1⟩,
    mem_erase.mpr ⟨fun he => hid key hkey (.inr he),(h key hkey).2⟩⟩

theorem mem_incident : key∈g.outEdges edgeType node++g.inEdges edgeType node ↔
      key∈g.edges ∧ key.edgeType=edgeType ∧ key.Touches node := by
  simp only [outEdges,inEdges,List.mem_append,List.mem_filter,decide_eq_true_eq,EdgeKey.Touches]
  tauto

end Graph

def attached (w : Writer) : Request → Bool
  | .upsertEdge key _ => decide (key.src∈w.overlay.graph.nodes ∧ key.dst∈w.overlay.graph.nodes)
  | _ => true

namespace Attached

abbrev sem : Semantics Writer Reply := guarded (attached · ·) answers

abbrev Inv : Writer → Prop := Holds Graph.NoDangling

theorem quiet : Quiet sem Inv := .quiet _ _

theorem upsertNode (labels : List String) (id : NodeId) (properties : Properties) :
    Safe sem Inv (ask (.upsertNode labels id properties)) :=
  Safe.request fun _ _ _ h hs => h.succeeds ((h.stage (h.overlay.upsertNode id _)).with_index _) hs.2

variable (key : EdgeKey)

theorem upsertEdge (properties : Properties) : Safe sem Inv (ask (.upsertEdge key properties)) :=
  Safe.request fun _ _ _ h hs =>
    let ⟨hsrc,hdst⟩ := of_decide_eq_true hs.1
    h.succeeds (h.stage (h.overlay.upsertEdge hsrc hdst _)) hs.2

theorem tombstoneEdge : Safe sem Inv (ask (.tombstoneEdge key)) :=
  Safe.request fun _ _ _ h hs => h.succeeds (h.stage (h.overlay.tombstoneEdge key)) hs.2

section

variable {Expr : Type} (L : Language Expr) (row : Row)

theorem createNode (labels : List String) (m : Language.Materialized) : Safe sem Inv (createNode L labels m) := by
  refine (Quiet.chooseId L quiet _).bind fun id => (Quiet.uniqueOnCreate L quiet _ _ _).bind fun _ => ?_
  refine (Quiet.compositeUnique L quiet _ _ _ _).bind fun _ => (Quiet.notnullOnCreate quiet _ _).bind fun _ => ?_
  refine (Quiet.vectorDims quiet _ _ _).bind fun stored => (upsertNode labels id stored).bind fun _ => ?_
  exact (safe_orFail _).bind fun _ => Safe.ret _

theorem rewriteNode (n : NodeValue) (labels : List String) (properties : Properties) :
    Safe sem Inv (rewriteNode row n labels properties) :=
  (upsertNode labels n.id properties).bind fun _ => (safe_orFail _).bind fun _ => .ret _

theorem rewriteRel (r : RelValue) (properties : Properties) : Safe sem Inv (rewriteRel row r properties) :=
  (upsertEdge _ properties).bind fun _ => (safe_orFail _).bind fun _ => .ret _

theorem setNodeProperty (n : NodeValue) (key : String) (core : Value) :
    Safe sem Inv (setNodeProperty L row n key core) := by
  refine (Quiet.uniqueOnSet L quiet _ _ _ _).bind fun _ => (Quiet.ask quiet rfl).bind fun w => ?_
  split
  · exact Safe.fail _
  · exact (Quiet.compositeUnique L quiet _ _ _ _).bind fun _ => (Quiet.vectorDims quiet _ _ _).bind fun stored =>
      rewriteNode row n n.labels stored

theorem setNodeMap (n : NodeValue) (replace : Bool) (incoming : List (String × Value)) :
    Safe sem Inv (setNodeMap L row n replace incoming) := by
  refine (Safe.forM (fun key => ?_) _).bind fun _ => (Quiet.compositeUnique L quiet _ _ _ _).bind fun _ => ?_
  · split
    · exact Quiet.uniqueOnSet L quiet _ _ _ _
    · exact Safe.ret _
  · exact (Quiet.notnullOnCreate quiet _ _).bind fun _ => (Quiet.vectorDims quiet _ _ _).bind fun stored =>
      rewriteNode row n n.labels stored

theorem setNodeLabels (n : NodeValue) (labels : List String) : Safe sem Inv (setNodeLabels L row n labels) := by
  refine (Quiet.notnullOnCreate quiet _ _).bind fun _ => (Quiet.vectorDims quiet _ _ _).bind fun stored => ?_
  refine (Safe.forM (fun e => Quiet.uniqueOnSet L quiet _ _ _ _) _).bind fun _ => ?_
  exact (Quiet.compositeUnique L quiet _ _ _ _).bind fun _ => rewriteNode row n _ stored

theorem setMap (replace : Bool) (targetAlias : String) (value : Expr) (row : Row) :
    Safe sem Inv (applySetMap L replace targetAlias value row) := by
  refine (safe_orFail _).bind fun v => (safe_orFail _).bind fun entries => ?_
  cases entries with
  | none => exact .ret _
  | some entries =>
    simp only
    split
    · exact (safe_orFail _).bind fun incoming => setNodeMap L row _ replace incoming
    · exact (safe_orFail _).bind fun incoming => rewriteRel row _ _
    · exact .fail _

theorem set (op : SetOp Expr) : Safe sem Inv (applySet L row op) := by
  refine (Quiet.refreshTarget quiet row op.targetAlias).bind fun row => ?_
  cases op with
  | property targetAlias key value =>
    refine (safe_orFail _).bind fun v => (safe_orFail _).bind fun core => ?_
    split
    · exact setNodeProperty L row _ key core
    · exact rewriteRel row _ _
    · exact Safe.fail _
  | replace targetAlias value => exact setMap L true targetAlias value row
  | merge targetAlias value => exact setMap L false targetAlias value row
  | labels targetAlias labels =>
    rw [applySetOp]
    split
    · exact setNodeLabels L row _ labels
    · exact Safe.fail _

theorem remove (op : RemoveOp) : Safe sem Inv (applyRemove L row op) := by
  refine (Quiet.refreshTarget quiet row op.targetAlias).bind fun row => ?_
  cases op with
  | property targetAlias key =>
    rw [applyRemoveOp]
    split
    · refine (Quiet.ask quiet rfl).bind fun w => ?_
      split
      · exact Safe.fail _
      · exact rewriteNode row _ _ _
    · exact rewriteRel row _ _
    · exact Safe.fail _
  | labels targetAlias labels =>
    rw [applyRemoveOp]
    split
    · exact rewriteNode row _ _ _
    · exact Safe.fail _

end

section

variable {w : Writer} {node : NodeId}

theorem does_incidentAmong (edgeTypes : List String) :
    Does sem Inv (incidentAmong node edgeTypes) (fun r w' => w'=w ∧ (r=none →
      ∀ key ∈ w.overlay.graph.edges, key.edgeType∈edgeTypes → ¬key.Touches node)) (fun _ _ => True) w := by
  induction edgeTypes with
  | nil => exact .ret ⟨rfl,fun _ _ _ h => nomatch h⟩
  | cons t ts ih =>
    refine does_checkDeadline And.right quiet (does_readOverlay And.right quiet ?_)
    split
    · next hnone =>
      refine ih.mono (fun r w' h => ⟨h.1,fun hr key hkey ht => ?_⟩) fun _ _ h => h
      rcases List.mem_cons.mp ht with rfl | ht
      · intro htouch
        have : key∈w.overlay.graph.outEdges key.edgeType node++w.overlay.graph.inEdges key.edgeType node :=
          Graph.mem_incident.mpr ⟨hkey,rfl,htouch⟩
        rw [hnone] at this
        exact nomatch this
      · exact h.2 hr key hkey ht
    · exact .ret ⟨rfl,nofun⟩

theorem does_rejectConnected : Does sem Inv (rejectConnected node)
    (fun _ w' => ∀ key ∈ w'.overlay.graph.edges, ¬key.Touches node) (fun _ _ => True) w := by
  refine .bind (P := fun r w' => r=none → ∀ key ∈ w'.overlay.graph.edges, ¬key.Touches node) ?_ ?_
  · refine .bind (does_session And.right quiet) ?_
    rintro _ w' ⟨rfl,rfl⟩
    refine (does_incidentAmong _).mono (fun r w'' h hr key hkey => ?_) fun _ _ h => h
    obtain ⟨rfl,h⟩ := h
    exact h hr key hkey (w''.mem_observedEdgeTypes hkey)
  · intro r w' h
    cases r with
    | none => exact .ret (h rfl)
    | some edgeType => exact .fail trivial

theorem does_tombstoneEdge (key : EdgeKey) : Does sem Inv (ask (.tombstoneEdge key) >>= fun done => orFail done)
    (fun _ w' => w'.overlay.graph.edges=w.overlay.graph.edges.erase key) (fun _ _ => True) w := by
  refine .bind (P := fun (r : Except ExecError Unit) w' => r = .ok () →
    w'.overlay.graph.edges=w.overlay.graph.edges.erase key) (.request fun hI r w' hs => ⟨?_,?_⟩) ?_
  · exact hI.succeeds (hI.stage (hI.overlay.tombstoneEdge key)) hs.2
  · rcases hs.2 with ⟨-,rfl⟩ | ⟨⟨e,rfl⟩,-⟩
    · intro _
      rw [Writer.tombstoneEdge,Holds.overlay_stage]
      rfl
    · nofun
  · exact fun r w' h => does_orFail fun a ha => h ha

theorem does_detachEdgeType (edgeType : String) : Does sem Inv (detachEdgeType node edgeType)
    (fun _ w' => ∀ key ∈ w'.overlay.graph.edges, key∈w.overlay.graph.edges ∧
      (key.edgeType=edgeType → ¬key.Touches node)) (fun _ _ => True) w := by
  refine does_checkDeadline And.right quiet (does_readOverlay And.right quiet ?_)
  refine (Does.forM (fun done w' => ∀ key ∈ w'.overlay.graph.edges, key∈w.overlay.graph.edges ∧ key∉done)
    (fun done key w' h => ?_) _ (fun key hkey => ⟨hkey,List.not_mem_nil⟩)).mono ?_ fun _ _ h => h
  · refine does_checkDeadline And.right quiet ((does_tombstoneEdge key).mono (fun _ w'' hw k hk => ?_) fun _ _ h => h)
    rw [hw] at hk
    obtain ⟨hne,hk⟩ := mem_erase.mp hk
    exact ⟨(h k hk).1,by simp [(h k hk).2,hne]⟩
  · intro _ w' h key hkey
    refine ⟨(h key hkey).1,fun ht htouch => (h key hkey).2 ?_⟩
    exact Graph.mem_incident.mpr ⟨(h key hkey).1,ht,htouch⟩

theorem does_detachIncidentEdges : Does sem Inv (detachIncidentEdges node)
    (fun _ w' => ∀ key ∈ w'.overlay.graph.edges, ¬key.Touches node) (fun _ _ => True) w := by
  refine Does.bind (does_session And.right quiet) ?_
  rintro _ w' ⟨rfl,rfl⟩
  refine (Does.forM (fun done w'' => ∀ key ∈ w''.overlay.graph.edges, key∈w'.overlay.graph.edges ∧
    (key.edgeType∈done → ¬key.Touches node)) (fun done t w'' h => ?_) _
    (fun key hkey => ⟨hkey,fun hdone => absurd hdone List.not_mem_nil⟩)).mono ?_ fun _ _ h => h
  · refine (does_detachEdgeType t).mono (fun _ w3 hw key hkey => ?_) fun _ _ h => h
    obtain ⟨hkey,ht⟩ := hw key hkey
    refine ⟨(h key hkey).1,fun hdone => ?_⟩
    rcases List.mem_append.mp hdone with hdone | hdone
    · exact (h key hkey).2 hdone
    · exact ht (List.mem_singleton.mp hdone)
  · intro _ w'' h key hkey
    exact (h key hkey).2 (w'.mem_observedEdgeTypes (h key hkey).1)

theorem deleteNode (detach : Bool) (node : NodeId) : Safe sem Inv (deleteNode detach node) := by
  intro w
  have hclear : Does sem Inv (if detach then detachIncidentEdges node else rejectConnected node)
      (fun _ w' => ∀ key ∈ w'.overlay.graph.edges, ¬key.Touches node) (fun _ _ => True) w := by
    cases detach with
    | true => exact does_detachIncidentEdges
    | false => exact does_rejectConnected
  have htomb : ∀ w' : Writer, (∀ key ∈ w'.overlay.graph.edges, ¬key.Touches node) →
      Does sem Inv (ask (.tombstoneNode node) >>= fun done => orFail done) (fun _ _ => True) (fun _ _ => True) w' :=
    fun w' h => .bind (.request (P := fun _ _ => True) fun hI r w'' hs =>
      ⟨hI.succeeds ((hI.stage (hI.overlay.tombstoneNode h)).with_index _) hs.2,trivial⟩)
      fun r w'' _ => safe_orFail r w''
  cases detach <;> exact hclear.bind fun _ w' h => htomb w' h

end

theorem keeps {Expr : Type} (L : Language Expr) : Keeps L sem Inv where
  quiet := quiet
  create := safe_create L (createNode L) upsertEdge
  set := set L
  remove := remove L
  delete := safe_delete L deleteNode tombstoneEdge

end Attached

def Writer.opened (schema : Schema) (vectorIndexes : List VectorIndexDescriptor) (base : Base) : Writer where
  schema := schema
  vectorIndexes := vectorIndexes
  committed := base
  durable := base
  poisoned := false
  pending := []
  mark := none
  index := .new

theorem Holds.opened (h : P base.graph) : Holds P (.opened schema vectorIndexes base) := ⟨h,h,h,nofun⟩

/-- From a graph without dangling edges, every graph the server publishes is without dangling edges, if each
relationship is written between live nodes. -/
theorem published_graph_no_dangling {Expr : Type} (L : Language Expr) (schema : Schema)
    (vectorIndexes : List VectorIndexDescriptor) (base : Base) (hbase : base.graph.NoDangling)
    (deeds : List (Deed Expr)) (q : Prog Reply (Except ExecError Unit)) (w : Writer)
    (hrun : Runs (guarded (attached · ·) answers) (serve L deeds).run (.opened schema vectorIndexes base) q w) :
    w.durable.graph.NoDangling :=
  ((Attached.keeps L).serve (.opened hbase) hrun).durable

def varExprs : Language String where
  evaluate name row := match row name with
    | some v => .ok v
    | none => .error (.eval s!"variable `{name}` is not bound")
  text := id
  nodeId _ := .error (.eval "NodeId must be a UUID string or Node")
  nodeIdText := toString
  debug _ := ""
  debugBinding _ := ""
  parameter _ := none
  isDirectPropertyOf _ _ := false
  chunkRows := 1

def twoNodes : Base where
  graph := ⟨((∅ : Overlay).insert 1 ⟨["A"],∅⟩).insert 2 ⟨["B"],∅⟩,∅⟩
  edgeTypes := []
  typed := typed_empty
  distinct := List.nodup_nil

def everyPair : LogicalPlan String := .crossProduct (.nodeScan "A" "a") (.nodeScan "B" "b")

def relate (input : LogicalPlan String) : LogicalPlan String := .create input [.rel none "R" "a" "b" .right [] none]

/-- `MATCH (a:A), (b:B) CREATE (a)-[:R]->(b)`, then `MATCH (a:A) DETACH DELETE a` in one batch. -/
def relateThenDetach : List (Deed String) :=
  [.grouped (relate everyPair),.grouped (.delete (.nodeScan "A" "a") ["a"] true),.commitGroup]

/-- `MATCH (a:A), (b:B) DETACH DELETE a CREATE (a)-[:R]->(b)`. -/
def detachThenRelate : List (Deed String) := [.committed (relate (.delete everyPair ["a"] true))]

def firstSteps {Expr : Type} (L : Language Expr) (ok : Writer → Request → Bool) (deeds : List (Deed Expr)) (w : Writer)
    (steps : Nat) : Option (Prog Reply (Except ExecError Unit) × Writer) :=
  follow (fun w o id => if ok w o then some (w.answer id o) else none) (List.range steps) (serve L deeds).run w

theorem firstSteps_runs {Expr : Type} {L : Language Expr} {ok : Writer → Request → Bool} {deeds : List (Deed Expr)}
    {w w' : Writer} {steps : Nat} {q : Prog Reply (Except ExecError Unit)}
    (h : firstSteps L ok deeds w steps=some (q,w')) : Runs (guarded (ok · ·) answers) (serve L deeds).run w q w' :=
  follow_runs (fun {s o id r s'} hexec => by
    split at hexec
    · next hok =>
      have hans := s.answer_answers id o
      rw [Option.some.inj hexec] at hans
      exact ⟨hok,hans⟩
    · cases hexec) h

/-- The row keeps the deleted node, and the relationship is committed without its source. -/
theorem create_at_deleted_node_dangles : twoNodes.graph.NoDangling ∧ ∃ q w,
    Runs answers (serve varExprs detachThenRelate).run (.opened {} [] twoNodes) q w ∧
      ¬w.durable.graph.NoDangling := by
  have hrun : (firstSteps varExprs (fun _ _ => true) detachThenRelate (.opened {} [] twoNodes) 8).map (fun x =>
      decide (⟨"R",1,2⟩∈x.2.durable.graph.edges)&&decide (1∉x.2.durable.graph.nodes))=some true := by
    decide +kernel
  obtain ⟨⟨q,w⟩,hsteps,hw⟩ := Option.map_eq_some_iff.mp hrun
  obtain ⟨hedge,hnode⟩ := Bool.and_eq_true_iff.mp hw
  refine ⟨nofun,q,w,(firstSteps_runs hsteps).unguard,fun h => ?_⟩
  exact of_decide_eq_true hnode (h _ (of_decide_eq_true hedge)).1

theorem published_graph_no_dangling_after_detach : ∃ q w,
    Runs (guarded (attached · ·) answers) (serve varExprs relateThenDetach).run (.opened {} [] twoNodes) q w ∧
      w.durable.graph.nodes.keys = [2] ∧ w.durable.graph.NoDangling := by
  have hrun : (firstSteps varExprs attached relateThenDetach (.opened {} [] twoNodes) 17).map
      (fun x => x.2.durable.graph.nodes.keys)=some [2] := by decide +kernel
  obtain ⟨⟨q,w⟩,hsteps,hw⟩ := Option.map_eq_some_iff.mp hrun
  exact ⟨q,w,firstSteps_runs hsteps,hw,
    published_graph_no_dangling varExprs {} [] twoNodes nofun relateThenDetach q w (firstSteps_runs hsteps)⟩

end NamiDB.Query
