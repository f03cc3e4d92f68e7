import NamiDB.Query.Execute

/-! What every clause keeps on every row is kept by every statement, however the server runs it. -/
namespace NamiDB.Query
open Storage Lib

def Request.isQuiet : Request → Bool
  | .upsertNode _ _ _ | .tombstoneNode _ | .upsertEdge _ _ | .tombstoneEdge _ => false
  | _ => true

section

variable {sem : Semantics Writer Reply} {I : Writer → Prop}

def Quiet (sem : Semantics Writer Reply) (I : Writer → Prop) : Prop :=
  ∀ o : Request, o.isQuiet=true → ∀ s r s', I s → sem s o r s' → I s'

theorem safe_orFail (r : Except ExecError α) : Safe sem I (orFail r) := by
  cases r with
  | ok a => exact .ret a
  | error e => exact .fail e

namespace Quiet

variable {Expr : Type} (L : Language Expr) (h : Quiet sem I)
include h

theorem ask {o : Request} (ho : o.isQuiet=true) : Safe sem I (ask o) := .request (h o ho)

theorem findCompositeConflict (label : String) (props : List (String × Value)) (exclude : Option NodeId) :
    Safe sem I (findCompositeConflict label props exclude) := by
  refine (h.ask rfl).bind fun answer => (safe_orFail _).bind fun probe => ?_
  cases probe with
  | conflict | noConflict => exact .ret _
  | unindexable => exact (h.ask rfl).bind fun _ => (safe_orFail _).bind fun _ => .ret _

theorem rejectConflicts (exclude : Option NodeId) (message : String → List (String × Value) → String)
    (checks : List (String × List (String × Value))) : Safe sem I (rejectConflicts exclude message checks) := by
  refine .forM (fun check => (h.findCompositeConflict _ _ _).bind fun conflict => ?_) checks
  cases conflict with
  | none => exact .ret _
  | some id => exact .fail _

variable (labels : List String) (props : Properties)

theorem uniqueOnCreate (exclude : Option NodeId) : Safe sem I (enforceUniqueOnCreate L labels props exclude) :=
  (h.ask rfl).bind fun _ => h.rejectConflicts _ _ _

theorem uniqueOnSet (key : String) (value : Value) (selfId : NodeId) :
    Safe sem I (enforceUniqueOnSet L labels key value selfId) :=
  (h.ask rfl).bind fun _ => h.rejectConflicts _ _ _

theorem compositeUnique (exclude : Option NodeId)
    (changed : Option (List String)) : Safe sem I (enforceCompositeUnique L labels props exclude changed) :=
  (h.ask rfl).bind fun _ => h.rejectConflicts _ _ _

theorem notnullOnCreate : Safe sem I (enforceNotnullOnCreate labels props) := by
  refine (h.ask rfl).bind fun w => ?_
  cases notNullViolation w.schema labels props with
  | none => exact .ret _
  | some message => exact .fail _

theorem vectorDims (changed : Option (List String)) : Safe sem I (enforceVectorDims labels props changed) :=
  (h.ask rfl).bind fun _ => (h.ask rfl).bind fun _ => safe_orFail _

theorem chooseId (explicitId : Option NodeId) : Safe sem I (chooseId L explicitId) := by
  cases explicitId with
  | none => exact h.ask rfl
  | some id =>
    refine (h.ask rfl).bind fun _ => (safe_orFail _).bind fun graph => ?_
    split
    · exact .fail _
    · exact .ret _

theorem refreshTarget (row : Row) (targetAlias : String) : Safe sem I (refreshStagedWriteTarget row targetAlias) := by
  unfold refreshStagedWriteTarget
  split
  · next node _ =>
    refine (h.ask rfl).bind fun w => ?_
    cases w.stagedNode node.id with
    | untouched => exact (h.ask rfl).bind fun _ => .ret _
    | tombstone => exact .fail _
    | upsert view => exact .ret _
  · next rel _ =>
    refine (h.ask rfl).bind fun w => ?_
    cases w.stagedEdge ⟨rel.edgeType,rel.src,rel.dst⟩ with
    | untouched => exact .ret _
    | tombstone => exact .fail _
    | upsert view => exact .ret _
  · exact .ret _

end Quiet

theorem safe_create (L : Language Expr) (hnode : ∀ labels m, Safe sem I (createNode L labels m))
    (hedge : ∀ key properties, Safe sem I (ask (.upsertEdge key properties)))
    (elements : List (CreateElement Expr)) (row : Row) : Safe sem I (applyCreate L elements row) := by
  refine .foldlM (fun row element => ?_) elements row
  cases element with
  | node binding labels properties spread =>
    rw [applyCreateElement]
    split
    · exact .ret _
    · exact (safe_orFail _).bind fun m => (hnode labels m).bind fun _ => .ret _
  | rel binding edgeType sourceAlias targetAlias direction properties spread =>
    refine (safe_orFail _).bind fun srcId => (safe_orFail _).bind fun dstId => (safe_orFail _).bind fun ends => ?_
    refine (safe_orFail _).bind fun m => (hedge _ _).bind fun _ => ?_
    exact (safe_orFail _).bind fun _ => .ret _

theorem safe_delete (L : Language Expr) (hnode : ∀ detach id, Safe sem I (deleteNode detach id))
    (hedge : ∀ key, Safe sem I (ask (.tombstoneEdge key))) (targets : List Expr) (detach : Bool) (row : Row) :
    Safe sem I (applyDelete L targets detach row) := by
  refine .forM (fun target => (safe_orFail _).bind fun v => ?_) targets
  cases v with
  | node n => exact hnode detach n.id
  | rel r => exact (hedge _).bind fun _ => safe_orFail _
  | null => exact .ret _
  | _ => exact .fail _

variable {w : Writer} {P : α → Writer → Prop}

theorem does_orFail (hr : ∀ a, r = .ok a → P a w) : Does sem I (orFail r) P (fun _ _ => True) w := by
  cases r with
  | ok a => exact .ret (hr a rfl)
  | error e => exact .fail trivial

variable (hsem : ∀ {w o r w'}, sem w o r w' → answers w o r w') (h : Quiet sem I)
include hsem h

theorem does_session : Does sem I (ask .session) (fun r w' => r=w ∧ w'=w) (fun _ _ => True) w :=
  Does.request fun hI r w' hs => ⟨h .session rfl w r w' hI hs,hsem hs⟩

theorem does_readOverlay (hf : Does sem I (f w.overlay.graph) P (fun _ _ => True) w) :
    Does sem I (ask .readOverlay >>= fun snap => orFail snap >>= f) P (fun _ _ => True) w := by
  refine .bind (P := fun (r : Except ExecError Graph) w' => w'=w ∧ ∀ g, r = .ok g → g=w.overlay.graph)
    (.request fun hI r w' hs => ⟨h .readOverlay rfl w r w' hI hs,?_⟩) ?_
  · rcases hsem hs with ⟨rfl,rfl⟩ | ⟨⟨e,rfl⟩,rfl⟩
    · exact ⟨rfl,by rintro g ⟨⟩; rfl⟩
    · exact ⟨rfl,nofun⟩
  · rintro snap w' ⟨rfl,hsnap⟩
    refine .bind (does_orFail (P := fun g w'' => w''=w' ∧ g=w'.overlay.graph)
      fun g hg => ⟨rfl,hsnap g hg⟩) ?_
    rintro g w'' ⟨rfl,rfl⟩
    exact hf

theorem does_checkDeadline (hf : Does sem I (f ()) P (fun _ _ => True) w) :
    Does sem I (ask .checkDeadline >>= fun go => orFail go >>= f) P (fun _ _ => True) w := by
  refine .bind (P := fun _ w' => w'=w)
    (.request fun hI r w' hs => ⟨h .checkDeadline rfl w r w' hI hs,hsem hs⟩) ?_
  rintro go w' rfl
  exact .bind (does_orFail (P := fun _ w'' => w''=w') fun _ _ => rfl) fun _ _ h => h ▸ hf

end

structure Keeps {Expr : Type} (L : Language Expr) (sem : Semantics Writer Reply) (I : Writer → Prop) : Prop where
  quiet : Quiet sem I
  create : ∀ elements row, Safe sem I (applyCreate L elements row)
  set : ∀ row op, Safe sem I (applySet L row op)
  remove : ∀ row op, Safe sem I (applyRemove L row op)
  delete : ∀ targets detach row, Safe sem I (applyDelete L targets detach row)

namespace Keeps

variable {Expr : Type} {L : Language Expr} {sem : Semantics Writer Reply} {I : Writer → Prop} (h : Keeps L sem I)
include h

theorem ask {o : Request} (ho : o.isQuiet=true) : Safe sem I (ask o) := Quiet.ask h.quiet ho

theorem checkDeadline : Safe sem I checkDeadline := (h.ask rfl).bind fun _ => safe_orFail _

theorem readRows (operator : String) (input : List Row) : Safe sem I (readRows operator input) :=
  (h.ask rfl).bind fun _ => safe_orFail _

theorem sets (items : List (SetOp Expr)) (row : Row) : Safe sem I (applySets L items row) :=
  Safe.foldlM (fun row op => h.set row op) items row

theorem removes (items : List RemoveOp) (row : Row) : Safe sem I (applyRemoves L items row) :=
  Safe.foldlM (fun row op => h.remove row op) items row

theorem deletes (targets : List Expr) (detach : Bool) (row : Row) : Safe sem I (deleteRow L targets detach row) :=
  (h.delete targets detach row).bind fun _ => .ret row

theorem eachRow {clause : Row → ExecM Row} (hc : ∀ row, Safe sem I (clause row)) (retain : Bool) (rows : List Row) :
    Safe sem I (eachRow clause retain rows) :=
  (Safe.mapM (fun row => h.checkDeadline.bind fun _ => hc row) rows).bind fun _ => Safe.ret _

variable (pattern : List (CreateElement Expr))

theorem merge (onMatch onCreate : List (SetOp Expr)) (row : Row) :
    Safe sem I (applyMerge L pattern onMatch onCreate row) := by
  refine (h.ask rfl).bind fun found => (safe_orFail found).bind fun rows => ?_
  cases rows with
  | nil => exact (h.create pattern row).bind fun created => (h.sets onCreate created).bind fun _ => .ret _
  | cons r rs => exact .mapM (h.sets onMatch) (r::rs)

theorem mergeRows (onMatch onCreate : List (SetOp Expr)) (retain : Bool)
    (rows : List Row) : Safe sem I (mergeRows L pattern onMatch onCreate retain rows) :=
  (Safe.mapM (fun row => h.checkDeadline.bind fun _ => h.merge pattern onMatch onCreate row) rows).bind
    fun _ => .ret _

theorem foreachRow (loopVar : String) (list : Expr) (hb : ∀ seed, Safe sem I (body seed)) (row : Row) :
    Safe sem I (executeForeachRow L loopVar list body row) := by
  refine h.checkDeadline.bind fun _ => (safe_orFail _).bind fun v => ?_
  cases v with
  | list items =>
    refine .bind (.foldlM (fun carry item => ?_) items row) fun _ => .ret _
    exact h.checkDeadline.bind fun _ => (hb _).bind fun _ => .ret _
  | null => exact .ret _
  | _ => exact .fail _

theorem foreachBody (plan : LogicalPlan Expr) (retain : Bool) (seed : Row) :
    Safe sem I (execForeachBody L plan retain seed) := by
  induction plan generalizing retain seed with
  | empty | argument => exact .ret _
  | create input elements ih => exact (ih true seed).bind fun rows => h.eachRow (h.create elements) retain rows
  | set input items ih => exact (ih true seed).bind fun rows => h.eachRow (h.sets items) retain rows
  | remove input items ih => exact (ih true seed).bind fun rows => h.eachRow (h.removes items) retain rows
  | delete input targets detach ih =>
    exact (ih true seed).bind fun rows => h.eachRow (h.deletes targets detach) retain rows
  | merge input pattern onMatch onCreate ih =>
    exact (ih true seed).bind fun rows => h.mergeRows pattern onMatch onCreate retain rows
  | foreach input loopVar list body ih ihbody =>
    refine (ih true seed).bind fun rows => ?_
    exact (Safe.forM (h.foreachRow loopVar list fun seed => ihbody true seed) rows).bind fun _ => Safe.ret _
  | _ => exact .fail _

section

theorem localCandidate (lost : String) (touched : LocalOverlay) (key : String) (committed : Option NodeValue) :
    Safe sem I (localCandidate lost touched key committed) := by
  unfold Query.localCandidate
  cases touched.lookup key with
  | none => exact .ret _
  | some id =>
    refine (h.ask rfl).bind fun w => ?_
    cases w.stagedNode id with
    | untouched => exact .fail _
    | tombstone | upsert => exact .ret _

variable (touched : LocalOverlay)

theorem noteStaged (key : String) (id : NodeId) :
    Safe sem I (noteStaged touched key id) := (h.ask rfl).bind fun _ => .ret _

variable (items : List (SetOp Expr))

theorem setCandidate (binding unwindAlias : String) (touched : LocalOverlay)
    (entry : (RuntimeValue × Option String) × Option NodeValue) :
    Safe sem I (setCandidate L items binding unwindAlias touched entry) := by
  refine h.checkDeadline.bind fun _ => ?_
  cases entry.2 with
  | none => exact .ret _
  | some node =>
    refine (h.sets items _).bind fun _ => ?_
    cases entry.1.2 with
    | none => exact .ret _
    | some key => exact h.noteStaged touched key node.id

theorem resolveEntry (entry : (RuntimeValue × Option String) × Option NodeValue) :
    Safe sem I (resolveEntry touched entry) := by
  unfold Query.resolveEntry
  cases entry.1.2 with
  | none => exact .ret _
  | some key => exact (h.localCandidate _ touched key entry.2).bind fun _ => .ret _

theorem setChunk (label binding property unwindAlias : String) (touched : LocalOverlay)
    (chunk : List (RuntimeValue × Option String)) :
    Safe sem I (setChunk L items label binding property unwindAlias touched chunk) := by
  refine h.checkDeadline.bind fun _ => (h.ask rfl).bind fun _ => (safe_orFail _).bind fun found => ?_
  split
  · exact .fail _
  · exact (Safe.mapM (h.resolveEntry touched) _).bind fun resolved =>
      Safe.foldlM (h.setCandidate items binding unwindAlias) resolved touched

variable (plan : LogicalPlan Expr)

theorem correlatedNodeSet : Safe sem I (executeDiscardedCorrelatedNodeSet L items plan) := by
  unfold executeDiscardedCorrelatedNodeSet
  split
  · next list unwindAlias label binding property value =>
    split
    · exact .ret _
    split
    · next rows _ =>
      refine (h.ask rfl).bind fun w => ?_
      split
      · exact .ret _
      refine (safe_orFail _).bind fun entries => ?_
      cases entries with
      | none => exact .ret _
      | some entries =>
        exact (Safe.foldlM (h.setChunk items label binding property unwindAlias) _ ∅).bind fun _ => Safe.ret _
    · exact .ret _
  · exact .ret _

variable (pattern : List (CreateElement Expr))

theorem matchOrCreate (onMatch onCreate : List (SetOp Expr)) (binding : String)
    (row : Row) (candidate : Option NodeValue) :
    Safe sem I (matchOrCreate L pattern onMatch onCreate binding row candidate) := by
  cases candidate with
  | some node => exact h.sets onMatch _
  | none => exact (h.create pattern _).bind fun created => h.sets onCreate created

section
variable (onMatch onCreate trailing : List (SetOp Expr))
include onMatch onCreate trailing

theorem mergeCandidate (labels : List String) (binding property unwindAlias : String) (touched : LocalOverlay)
    (entry : (RuntimeValue × Option String) × Option NodeValue) :
    Safe sem I (mergeCandidate L pattern onMatch onCreate trailing labels binding property unwindAlias touched
      entry) := by
  refine h.checkDeadline.bind fun _ => (h.localCandidate _ touched _ entry.2).bind fun candidate => ?_
  refine (h.matchOrCreate pattern onMatch onCreate binding _ _).bind fun merged =>
    (h.sets trailing merged).bind fun merged => ?_
  split
  · exact h.noteStaged touched _ _
  · exact .fail _

theorem mergeChunk (labels : List String) (label binding property unwindAlias : String) (touched : LocalOverlay)
    (chunk : List (RuntimeValue × Option String)) :
    Safe sem I (mergeChunk L pattern onMatch onCreate trailing labels label binding property unwindAlias touched
      chunk) := by
  refine h.checkDeadline.bind fun _ => (h.ask rfl).bind fun _ => (safe_orFail _).bind fun found => ?_
  split
  · exact .fail _
  · exact .foldlM (h.mergeCandidate pattern onMatch onCreate trailing labels binding property unwindAlias) _ _

theorem correlatedMerge (plan : LogicalPlan Expr) :
    Safe sem I (executeDiscardedCorrelatedSingleNodeMerge L pattern onMatch onCreate trailing plan) := by
  unfold executeDiscardedCorrelatedSingleNodeMerge
  split
  · refine (h.ask rfl).bind fun w => ?_
    split
    · split
      · split
        · exact .ret _
        refine (safe_orFail _).bind fun entries => ?_
        cases entries with
        | none => exact .ret _
        | some entries =>
          exact (Safe.foldlM (h.mergeChunk _ onMatch onCreate trailing _ _ _ _ _) _ ∅).bind fun _ => Safe.ret _
      · exact .ret _
    · exact .ret _
  · exact .ret _

end

theorem mergeBelow : Safe sem I (executeDiscardedMergeBelow L items plan) := by
  unfold executeDiscardedMergeBelow
  split
  · exact h.correlatedMerge _ _ _ _ _
  · exact .ret _

theorem tryCorrelatedSet (input : LogicalPlan Expr) (retain : Bool) :
    Safe sem I (tryCorrelatedSet L items input retain) := by
  cases retain with
  | true => exact .ret _
  | false =>
    refine (h.correlatedNodeSet items input).bind fun handled => ?_
    cases handled with
    | true => exact .ret _
    | false => exact h.mergeBelow items input

theorem tryCorrelatedMerge (onMatch onCreate : List (SetOp Expr)) (input : LogicalPlan Expr) (retain : Bool) :
    Safe sem I (tryCorrelatedMerge L pattern onMatch onCreate input retain) := by
  cases retain with
  | true => exact .ret _
  | false => exact h.correlatedMerge pattern onMatch onCreate [] input

end

omit h in
theorem filterRow (predicate : Expr) (row : Row) : Safe sem I (filterRow L predicate row) :=
  (safe_orFail _).bind fun _ => .ret _

omit h in
theorem unwindRow (list : Expr) (binding : String) (row : Row) : Safe sem I (unwindRow L list binding row) := by
  refine (safe_orFail _).bind fun v => ?_
  cases v with
  | list items | null => exact .ret _
  | _ => exact .fail _

theorem plan (plan : LogicalPlan Expr) (retain : Bool) : Safe sem I (executeWriteInner L plan retain) := by
  induction plan generalizing retain with
  | empty => exact .ret _
  | argument | delegate operator => exact h.readRows _ _
  | nodeScan label binding => exact (h.ask rfl).bind fun _ => (safe_orFail _).bind fun _ => .ret _
  | create input elements ih => exact (ih true).bind fun rows => h.eachRow (h.create elements) retain rows
  | set input items ih =>
    refine (h.tryCorrelatedSet items input retain).bind fun handled => ?_
    split
    · exact .ret _
    · exact (ih true).bind fun rows => h.eachRow (h.sets items) retain rows
  | remove input items ih => exact (ih true).bind fun rows => h.eachRow (h.removes items) retain rows
  | delete input targets detach ih =>
    exact (ih true).bind fun rows => h.eachRow (h.deletes targets detach) retain rows
  | merge input pattern onMatch onCreate ih =>
    refine (h.tryCorrelatedMerge pattern onMatch onCreate input retain).bind fun handled => ?_
    split
    · exact .ret _
    · refine (ih true).bind fun rows => (h.readRows _ rows).bind fun _ => ?_
      exact h.mergeRows pattern onMatch onCreate retain rows
  | foreach input loopVar list body ih ihbody =>
    refine (ih true).bind fun rows => ?_
    exact (Safe.forM (h.foreachRow loopVar list (h.foreachBody body true)) rows).bind fun _ => Safe.ret _
  | apply input subplan ih ihsub =>
    refine (ih true).bind fun rows => (Safe.mapM (fun row => ?_) rows).bind fun _ => Safe.ret _
    exact h.checkDeadline.bind fun _ => (h.foreachBody subplan retain row).bind fun _ => Safe.ret _
  | derive input operator ih => exact (ih true).bind fun rows => (h.readRows operator rows).bind fun _ => .ret _
  | nodeByPropertyValue input label binding property value multi ih =>
    exact (ih true).bind fun rows => h.readRows _ rows
  | filter input predicate ih =>
    exact (ih true).bind fun rows => (Safe.mapM (filterRow predicate) rows).bind fun _ => Safe.ret _
  | unwind input list binding ih =>
    exact (ih true).bind fun rows => (Safe.mapM (unwindRow list binding) rows).bind fun _ => Safe.ret _
  | distinct input ih =>
    refine (ih retain).bind fun rows => ?_
    cases retain with
    | false => exact .ret _
    | true => exact h.readRows _ rows
  | union left right all ihl ihr =>
    refine (ihl retain).bind fun l => (ihr retain).bind fun r => ?_
    split
    · exact .ret _
    split
    · exact .ret _
    · exact h.readRows _ _
  | crossProduct left right ihl ihr => exact (ihl retain).bind fun l => (ihr retain).bind fun r => .ret _
  | discardResult input ih => exact (ih false).bind fun _ => .ret _

theorem recover : Safe sem I recoverAfterWriteError := by
  refine (h.ask rfl).bind fun w => ?_
  split
  · exact (h.ask rfl).bind fun _ => .ret _
  · exact .ret _

theorem commitOrDiscard : Safe sem I commitOrDiscard := by
  refine (h.ask rfl).bind fun r => ?_
  cases r with
  | ok _ => exact .ret _
  | error e => exact (h.ask rfl).bind fun _ => h.recover

theorem transaction (plans : List (LogicalPlan Expr)) (commit : Bool) :
    Safe sem I (runTransaction L plans commit) := by
  induction plans with
  | nil =>
    cases commit with
    | true => exact h.commitOrDiscard
    | false => exact h.ask rfl
  | cons plan plans ih =>
    refine (h.plan plan true).attempt.bind fun r => ?_
    cases r with
    | ok _ => exact ih
    | error e => exact h.ask rfl

theorem perform (deed : Deed Expr) : Safe sem I (perform L deed) := by
  cases deed with
  | grouped plan =>
    refine (h.ask rfl).bind fun _ => (h.plan plan true).attempt.bind fun r => ?_
    cases r with
    | ok _ => exact h.ask rfl
    | error e => exact (h.ask rfl).bind fun _ => h.recover
  | committed plan =>
    refine (h.plan plan true).attempt.bind fun r => ?_
    cases r with
    | ok _ => exact h.commitOrDiscard
    | error e => exact (h.ask rfl).bind fun _ => h.recover
  | transaction plans commit => exact h.commitOrDiscard.bind fun _ => h.transaction plans commit
  | commitGroup => exact h.commitOrDiscard
  | reopen => exact (h.ask rfl).bind fun _ => .ret _

theorem serve {deeds : List (Deed Expr)} {w w' : Writer} {q : Prog Reply (Except ExecError Unit)} (hw : I w)
    (hrun : Runs sem (serve L deeds).run w q w') : I w' :=
  Does.invariant (Safe.forM h.perform deeds w) hw hrun

end Keeps
end NamiDB.Query
