import NamiDB.Cypher.Expand
import NamiDB.Lib.Trails

/-! A DISTINCT projection that reads only the end of a variable-length pattern is answered by a search that
keeps one walk for each node, instead of all trails. -/
namespace NamiDB.Cypher
open Query Storage Lib List

section

variable (base : Base) (hop : Expand)
variable {graph : Graph} {direction : RelationshipDirection}

/-- The edges that a walk may take at a node: none that a binding of the clause holds, and only to nodes that
exist. -/
def hopEdges (bound : List EdgeKey) (u : NodeId) : List (EdgeKey × NodeId) :=
  (neighboursOfAny base.graph (resolveEdgeTypes base hop.edgeType) hop.direction u).filterMap fun e =>
    if bound.contains e then none
    else (lookupNodeById base.graph (partnerId e hop.direction u)).map fun _ => (e,partnerId e hop.direction u)

def Joins (direction : RelationshipDirection) (key : EdgeKey) (u t : NodeId) : Prop :=
  match direction with
  | .right => key.src=u ∧ key.dst=t
  | .left => key.dst=u ∧ key.src=t
  | .both => key.src=u ∧ key.dst=t ∨ key.dst=u ∧ key.src=t

theorem mem_neighboursOf : key∈neighboursOf graph edgeType direction u ∧ partnerId key direction u=t ↔
      key∈graph.edges ∧ key.edgeType=edgeType ∧ Joins direction key u t := by
  cases direction with
  | right => simp [neighboursOf,Graph.outEdges,partnerId,Joins,AList.mem_keys,and_assoc]
  | left => simp [neighboursOf,Graph.inEdges,partnerId,Joins,AList.mem_keys,and_assoc]
  | both =>
    simp only [neighboursOf,Graph.outEdges,Graph.inEdges,partnerId,Joins,mem_append,mem_filter,
      AList.mem_keys,decide_eq_true_eq]
    by_cases hsrc : key.src=u <;> by_cases hdst : key.dst=u <;> simp [hsrc,hdst,and_assoc]

theorem mem_neighboursOfAny : k∈neighboursOfAny graph edgeTypes direction u ∧ partnerId k direction u=t ↔
      k∈graph.edges ∧ k.edgeType∈edgeTypes ∧ Joins direction k u t := by
  simp only [neighboursOfAny,mem_flatMap]
  constructor
  · rintro ⟨⟨edgeType,htype,hmem⟩,ht⟩
    obtain ⟨he,rfl,hj⟩ := mem_neighboursOf.mp ⟨hmem,ht⟩
    exact ⟨he,htype,hj⟩
  · rintro ⟨he,htype,hj⟩
    obtain ⟨hmem,ht⟩ := mem_neighboursOf.mpr ⟨he,rfl,hj⟩
    exact ⟨⟨_,htype,hmem⟩,ht⟩

variable {base hop} {bound : List EdgeKey} {u t : NodeId} {k : EdgeKey}

theorem mem_hopEdges : (k,t)∈hopEdges base hop bound u ↔
    k∈base.graph.edges ∧ k.edgeType∈resolveEdgeTypes base hop.edgeType ∧ Joins hop.direction k u t ∧
      k∉bound ∧ (lookupNodeById base.graph t).isSome := by
  rw [hopEdges,mem_filterMap]
  constructor
  · rintro ⟨e,he,hsome⟩
    split_ifs at hsome with hb
    obtain ⟨view,hview,⟨⟩⟩ := Option.map_eq_some_iff.mp hsome
    obtain ⟨hk,htype,hj⟩ := mem_neighboursOfAny.mp ⟨he,rfl⟩
    exact ⟨hk,htype,hj,by simpa using hb,by simp [hview]⟩
  · rintro ⟨hk,htype,hj,hb,hsome⟩
    obtain ⟨hmem,rfl⟩ := mem_neighboursOfAny.mpr ⟨hk,htype,hj⟩
    obtain ⟨view,hview⟩ := Option.isSome_iff_exists.mp hsome
    exact ⟨k,hmem,by simp [hb,hview]⟩

theorem hopEdges_ends (h : (k,t)∈hopEdges base hop bound u) (h' : (k,t')∈hopEdges base hop bound u') :
    t=t' ∨ t=u' ∧ hop.direction = .both := by
  obtain ⟨-,-,hj,-,-⟩ := mem_hopEdges.mp h
  obtain ⟨-,-,hj',-,-⟩ := mem_hopEdges.mp h'
  cases hd : hop.direction with
  | right | left => simp only [hd,Joins] at hj hj'; exact .inl (hj.2.symm.trans hj'.2)
  | both =>
    simp only [hd] at hj hj'
    rcases hj with ⟨-,h⟩ | ⟨-,h⟩ <;> rcases hj' with ⟨hu,h'⟩ | ⟨hu,h'⟩
    · exact .inl (h.symm.trans h')
    · exact .inr ⟨h.symm.trans hu,rfl⟩
    · exact .inr ⟨h.symm.trans hu,rfl⟩
    · exact .inl (h.symm.trans h')

theorem hopEdges_symm (hboth : hop.direction = .both) (hs : (lookupNodeById base.graph s).isSome)
    (hu : (lookupNodeById base.graph u).isSome) :
    (k,s)∈hopEdges base hop bound u ↔ (k,u)∈hopEdges base hop bound s := by
  have hj : Joins .both k u s ↔ Joins .both k s u := or_comm.trans (or_congr and_comm and_comm)
  simp only [mem_hopEdges,hboth,hj,hs,hu]

end

def Step.walk (step : Step) : Walk NodeId EdgeKey := ⟨step.tail,step.rels⟩

namespace Traversal

/-- A pattern of several hops to a node that nothing has bound, without a path. -/
structure Plain (t : Traversal) : Prop where
  backReference : t.hop.backReference=false
  existing : t.existing=none
  matchesLabels : t.matchesLabels=true
  min : t.min≤1
  max : 1<t.max
  pathBinding : t.hop.pathBinding=none
  relAlias : t.hop.relAlias≠some t.hop.targetAlias

def edges (t : Traversal) : NodeId → List (EdgeKey × NodeId) := hopEdges t.base t.hop t.bound

def isResult (t : Traversal) (id : NodeId) : Bool :=
  (lookupNodeById t.base.graph id).any fun view => t.hop.targetLabels.all view.labels.contains

def Stands (t : Traversal) (step : Step) : Prop :=
  ∃ view, lookupNodeById t.base.graph step.tail=some view ∧ step.row.get t.hop.targetAlias=some (.node view)

/-- How far a level has come. `walked` are the walks that it has let go on. -/
structure Mirrors (t : Traversal) (depth : Nat) (hits : List Row) (st : LevelState) (st' : Level NodeId EdgeKey)
    (walked : List Step) : Prop where
  walks : walked.map Step.walk=st'.walks
  next : st.next=if depth<t.max then walked else []
  hits : st.hits=hits++(walked.filter fun step => t.isResult step.tail).map t.hitRow
  seen : t.prune=true → ∀ x, (lookupNodeById t.base.graph x).isSome → (x∈st.seen ↔ x∈st'.seen)
  stands : ∀ step ∈ walked, t.Stands step

variable {t : Traversal} {depth : Nat} {hits : List Row} {st : LevelState} {st' : Level NodeId EdgeKey}
  {walked : List Step} (visited : List NodeId) {step : Step} {edge : EdgeKey}

theorem Mirrors.skip (h : t.Mirrors depth hits st st' walked) (hplain : t.Plain)
    (hnone : edge∈t.bound ∨ lookupNodeById t.base.graph (partnerId edge t.hop.direction step.tail)=none) :
    t.Mirrors depth hits (t.visitEdge depth visited st step edge) st' walked := by
  have hseen : lookupNodeById t.base.graph (partnerId edge t.hop.direction step.tail)=none →
      t.Mirrors depth hits { st with seen := if t.prune then partnerId edge t.hop.direction step.tail::st.seen
        else st.seen } st' walked := by
    intro hmissing
    refine ⟨h.walks,h.next,h.hits,fun hprune x hx => ?_,h.stands⟩
    have hne : x≠partnerId edge t.hop.direction step.tail := by
      rintro rfl
      simp [hmissing] at hx
    simp [hprune,hne,h.seen hprune x hx]
  unfold visitEdge
  by_cases hb : edge∈t.bound
  · rw [if_pos (by simpa using hb)]
    exact h
  · have hmissing := hnone.resolve_left hb
    have hreached : t.reached (partnerId edge t.hop.direction step.tail)=none := by
      simp [reached,hplain.backReference,hmissing]
    rw [if_neg (by simpa using hb)]
    simp only [hreached]
    split
    · exact h
    · split <;> exact hseen hmissing

theorem Mirrors.arrive (h : t.Mirrors depth hits st st' walked) (hplain : t.Plain) (hdepth : 0<depth)
    (hb : edge∉t.bound) (hview : lookupNodeById t.base.graph (partnerId edge t.hop.direction step.tail)=some view) :
    ∃ walked', t.Mirrors depth hits (t.visitEdge depth visited st step edge)
      (Lib.arrive t.prune visited st' (step.walk,edge,partnerId edge t.hop.direction step.tail)) walked' := by
  generalize htarget : partnerId edge t.hop.direction step.tail=target at *
  have hskip : (t.prune&&(visited.contains target||st.seen.contains target)) =
      (t.prune&&(visited.contains target||st'.seen.contains target)) := by
    cases hprune : t.prune with
    | false => rfl
    | true =>
      have := h.seen hprune target (by simp [hview])
      simp [this]
  have hseen : t.prune=true → ∀ x, (lookupNodeById t.base.graph x).isSome →
      (x∈(if t.prune then target::st.seen else st.seen) ↔ x∈target::st'.seen) := by
    intro hprune x hx
    rw [if_pos hprune,mem_cons,mem_cons,h.seen hprune x hx]
  have hreached : t.reached target=some (some view,t.isResult target) := by
    simp [reached,hplain.backReference,hview,isResult,(Nat.ne_of_gt hplain.max)]
  unfold visitEdge
  rw [if_neg (by simpa using hb)]
  simp only [htarget,hskip,hreached,hplain.max,decide_true,Bool.true_and]
  by_cases hs : (t.prune&&(visited.contains target||st'.seen.contains target))=true
  · rw [if_pos hs,arrive_skip hs]
    exact ⟨walked,h⟩
  · rw [if_neg hs]
    by_cases hrel : step.rels.contains edge=true
    · rw [if_pos hrel,arrive_block (by simpa using hs) (by simpa [Step.walk] using hrel)]
      exact ⟨walked,h.walks,h.next,h.hits,hseen,h.stands⟩
    · rw [if_neg hrel,arrive_push (by simpa using hs) (by simpa [Step.walk] using hrel)]
      refine ⟨walked++[t.extend step edge target (some view)],?_,?_,?_,hseen,?_⟩
      · simp [h.walks,Step.walk,extend,hplain.max]
      · by_cases hlt : depth<t.max <;> simp [h.next,hlt]
      · have hdeep : Nat.max t.min 1≤depth := Nat.max_le.mpr ⟨le_trans hplain.min hdepth,hdepth⟩
        have htail : (t.extend step edge target (some view)).tail=target := rfl
        simp only [hdeep,hplain.matchesLabels,hplain.existing,decide_true,Bool.true_and,Option.all_none,Bool.and_true,
          filter_append,map_append,h.hits,filter_cons,filter_nil,htail]
        split <;> simp
      · exact forall_mem_append.mpr ⟨h.stands,forall_mem_singleton.mpr ⟨view,hview,by simp [extend]⟩⟩

def looksAt (t : Traversal) (a : Step × EdgeKey) : Option (Walk NodeId EdgeKey × EdgeKey × NodeId) :=
  if t.bound.contains a.2 then none
  else (lookupNodeById t.base.graph (partnerId a.2 t.hop.direction a.1.tail)).map fun _ =>
    (a.1.walk,a.2,partnerId a.2 t.hop.direction a.1.tail)

section
variable (hplain : t.Plain)
include hplain

theorem steps_edges (frontier : List Step) : steps t.edges (frontier.map Step.walk) =
      (frontier.flatMap fun step => (t.edgesOf step.tail).map fun edge => (step,edge)).filterMap t.looksAt := by
  simp only [steps,flatMap_map,filterMap_flatMap,filterMap_map]
  refine flatMap_congr fun step _ => ?_
  simp only [edges,hopEdges,edgesOf,hplain.backReference,Bool.false_and,map_filterMap]
  refine filterMap_congr fun e _ => ?_
  simp only [Function.comp,looksAt,Step.walk]
  split <;> simp [Function.comp_def]

theorem Mirrors.fold (hdepth : 0<depth) (l : List (Step × EdgeKey)) (h : t.Mirrors depth hits st st' walked) :
    ∃ walked', t.Mirrors depth hits (l.foldl (fun st a => t.visitEdge depth visited st a.1 a.2) st)
      ((l.filterMap t.looksAt).foldl (Lib.arrive t.prune visited) st') walked' := by
  induction l generalizing st st' walked with
  | nil => exact ⟨walked,h⟩
  | cons a l ih =>
    obtain ⟨step,edge⟩ := a
    by_cases hb : edge∈t.bound
    · rw [filterMap_cons_none (by simp [looksAt,hb])]
      exact ih (h.skip visited hplain (.inl hb))
    · cases hview : lookupNodeById t.base.graph (partnerId edge t.hop.direction step.tail) with
      | none =>
        rw [filterMap_cons_none (by simp [looksAt,hview])]
        exact ih (h.skip visited hplain (.inr hview))
      | some view =>
        obtain ⟨walked',h'⟩ := h.arrive visited hplain hdepth hb hview
        rw [filterMap_cons_some (b := (step.walk,edge,partnerId edge t.hop.direction step.tail))
          (by simp [looksAt,hb,hview]),foldl_cons]
        exact ih h'

theorem mirrors_visitLevel (hdepth : 0<depth) (frontier : List Step) (hits : List Row) :
    ∃ walked : List Step, walked.map Step.walk=arrivals t.edges t.prune visited (frontier.map Step.walk) ∧
      (t.visitLevel depth visited frontier hits).next=(if depth<t.max then walked else []) ∧
      (t.visitLevel depth visited frontier hits).hits =
        hits++(walked.filter fun step => t.isResult step.tail).map t.hitRow ∧ ∀ step ∈ walked, t.Stands step := by
  have hstart : t.Mirrors depth hits ⟨[],[],hits⟩ ⟨[],[]⟩ [] :=
    ⟨rfl,by simp,by simp,by simp,by simp⟩
  obtain ⟨walked,h⟩ := hstart.fold visited hplain hdepth
    (frontier.flatMap fun step => (t.edgesOf step.tail).map fun edge => (step,edge))
  rw [← steps_edges hplain] at h
  exact ⟨walked,h.walks,h.next,h.hits,h.stands⟩

theorem traverse_eq (hdepth : 0<depth) (hhops : depth+hops=t.max+1) (visited visited' : List NodeId)
    (hvisited : t.prune=true → visited=visited') (frontier : List Step) (hits : List Row) :
    ∃ walked : List Step, walked.map Step.walk=search t.edges t.prune hops visited' (frontier.map Step.walk) ∧
      t.traverse hops depth visited frontier hits =
        hits++(walked.filter fun step => t.isResult step.tail).map t.hitRow ∧ ∀ step ∈ walked, t.Stands step := by
  induction hops generalizing depth visited visited' frontier hits with
  | zero => exact ⟨[],rfl,by simp [traverse],by simp⟩
  | succ hops ih =>
    obtain ⟨walked,hwalks,hnext,hhits,hstands⟩ := mirrors_visitLevel visited hplain hdepth frontier hits
    have harrivals : arrivals t.edges t.prune visited (frontier.map Step.walk) =
        arrivals t.edges t.prune visited' (frontier.map Step.walk) := by
      cases hprune : t.prune with
      | true => rw [hvisited hprune]
      | false => rfl
    rw [harrivals] at hwalks
    simp only [traverse,search,← hwalks]
    by_cases hstop : (t.visitLevel depth visited frontier hits).next.isEmpty=true
    · rw [if_pos hstop]
      refine ⟨walked,?_,hhits,hstands⟩
      -- nothing goes on: the level was the last one or empty
      rw [hnext] at hstop
      by_cases hlt : depth<t.max
      · have : walked=[] := by simpa [hlt] using hstop
        simp [this,search_nil]
      · have : hops=0 := by omega
        simp [this,search]
    · have hlt : depth<t.max := by
        by_contra hlt
        simp [hnext,hlt] at hstop
      rw [if_neg hstop,hnext,if_pos hlt,hhits]
      obtain ⟨walked',hwalks',hrows,hstands'⟩ := ih (Nat.succ_pos depth) (by omega)
        (if t.prune then walked.map Step.tail++visited else visited)
        ((walked.map Step.walk).map Walk.tail++visited') (fun hprune => by
          rw [if_pos hprune,hvisited hprune,map_map]
          rfl) walked (hits++(walked.filter fun step => t.isResult step.tail).map t.hitRow)
      refine ⟨walked++walked',by rw [map_append,hwalks'],?_,?_⟩
      · rw [hrows,filter_append,map_append,append_assoc]
      · exact forall_mem_append.mpr ⟨hstands,hstands'⟩

theorem get_hitRow (h : t.Stands step) : ∃ view, lookupNodeById t.base.graph step.tail=some view ∧
    (t.hitRow step).get t.hop.targetAlias=some (.node view) := by
  obtain ⟨view,hview,hget⟩ := h
  refine ⟨view,hview,?_⟩
  simp only [hitRow,hplain.pathBinding]
  split
  · rename_i name hlength hname
    have hne : t.hop.targetAlias≠name := fun heq => hplain.relAlias (by rw [hname,heq])
    simp [hne,hget]
  · exact hget

end

end Traversal

section

variable {n : NodeValue} {rows out : List Row}

/-- A pattern that the search is used for: several hops with a lower bound of 0 or 1, to a node that nothing
has bound, and no path. -/
structure Endpoint (hop : Expand) (min max : Nat) : Prop where
  optional : hop.optional=false
  backReference : hop.backReference=false
  pathBinding : hop.pathBinding=none
  relAlias : hop.relAlias≠some hop.targetAlias
  min : min≤1
  max : 1 < max

def heldBy (hop : Expand) (row : Row) : List EdgeKey := boundRelKeysAll (hop.uniqueRels.filterMap row.get)

variable (base : Base) (hop : Expand) (min max : Nat)

def ZeroHop (row : Row) (v : RuntimeValue) : Prop :=
  min=0 ∧ ∃ n, row.get hop.source=some (.node n) ∧ hop.targetLabels.all n.labels.contains=true ∧ v = .node n

def Result (id : NodeId) (view : NodeValue) : Prop :=
  lookupNodeById base.graph id=some view ∧ hop.targetLabels.all view.labels.contains=true

def Arrives (prune : Bool) (row : Row) (v : RuntimeValue) : Prop :=
  ∃ n id view, row.get hop.source=some (.node n) ∧
    id∈(search (hopEdges base hop (heldBy hop row)) prune max [] [⟨n.id,[]⟩]).map Walk.tail ∧
    Result base hop id view ∧ v = .node view

variable {base hop min max} {row : Row} {emitted : List NodeId} {prune : Bool} {v : RuntimeValue}

def endpointTraversal (base : Base) (hop : Expand) (min max : Nat) (prune : Bool) (row : Row) : Traversal :=
  ⟨base,hop,min,max,prune,heldBy hop row,none,true,row⟩

theorem Endpoint.plain (h : Endpoint hop min max) (base : Base) (prune : Bool) (row : Row) :
    (endpointTraversal base hop min max prune row).Plain :=
  ⟨h.backReference,rfl,rfl,h.min,h.max,h.pathBinding,h.relAlias⟩

theorem Endpoint.get_zeroRow (h : Endpoint hop min max) (base : Base) (prune : Bool) (row : Row) (n : NodeValue) :
    ((endpointTraversal base hop min max prune row).zeroRow n).get hop.targetAlias=some (.node n) := by
  simp only [Traversal.zeroRow,endpointTraversal,h.backReference]
  split
  · rename_i name hname
    have hne : hop.targetAlias≠name := fun heq => h.relAlias (by rw [hname,heq])
    simp [hne]
  · simp

def zeroRows (base : Base) (hop : Expand) (min max : Nat) (prune : Bool) (emitted : List NodeId) (row : Row)
    (n : NodeValue) : List Row :=
  if min==0&&hop.targetLabels.all n.labels.contains && !(prune&&emitted.contains n.id) then
    [(endpointTraversal base hop min max prune row).zeroRow n]
  else []

theorem expandRow_walks (base : Base) (prune : Bool) (emitted : List NodeId) (h : Endpoint hop min max)
    (hn : row.get hop.source=some (.node n)) : ∃ walked : List Step,
      walked.map Step.walk=search (hopEdges base hop (heldBy hop row)) prune max [] [⟨n.id,[]⟩] ∧
      (∀ step ∈ walked, (endpointTraversal base hop min max prune row).Stands step) ∧
      expandRow base hop min max prune emitted row = .ok (if prune=true ∧
          (min==0&&hop.targetLabels.all n.labels.contains && !(prune&&emitted.contains n.id))=true then
          n.id::emitted else emitted, zeroRows base hop min max prune emitted row n++(walked.filter fun step =>
          (endpointTraversal base hop min max prune row).isResult step.tail).map
            (endpointTraversal base hop min max prune row).hitRow) := by
  obtain ⟨walked,hwalks,hrows,hstands⟩ := Traversal.traverse_eq (h.plain base prune row) Nat.one_pos
    (Nat.add_comm 1 max) [] [] (fun _ => rfl) [⟨n.id,row,[],[],[]⟩] (zeroRows base hop min max prune emitted row n)
  refine ⟨walked,hwalks,hstands,?_⟩
  rw [← hrows]
  simp only [expandRow,expandRowBy,hn,boundTarget,h.backReference,h.optional,h.pathBinding,Bool.false_eq_true,
    if_false,Bool.and_false,Option.isSome_none,bind,Except.bind,pure,Except.pure,if_true,Bool.and_true,
    Option.all_none,Bool.and_eq_true prune]
  rfl

theorem expandRow_node (base : Base) (prune : Bool) (emitted : List NodeId) (h : Endpoint hop min max)
    (hn : row.get hop.source=some (.node n)) :
    ∃ emitted' out, expandRow base hop min max prune emitted row = .ok (emitted',out) ∧
      emitted'=(if prune=true ∧ min=0 ∧ hop.targetLabels.all n.labels.contains=true ∧ n.id∉emitted then
        n.id::emitted else emitted) ∧ (∀ r ∈ out, ∃ v, r.get hop.targetAlias=some v) ∧
      ∀ v, (∃ r ∈ out, r.get hop.targetAlias=some v) ↔
        (ZeroHop hop min row v ∧ ¬(prune=true ∧ n.id∈emitted)) ∨ Arrives base hop max prune row v := by
  let t : Traversal := ⟨base,hop,min,max,prune,heldBy hop row,none,true,row⟩
  have hplain : t.Plain := h.plain base prune row
  let zero : Bool := min==0&&hop.targetLabels.all n.labels.contains && !(prune&&emitted.contains n.id)
  have hzero : zero=true ↔ (min=0 ∧ hop.targetLabels.all n.labels.contains=true) ∧
      ¬(prune=true ∧ n.id∈emitted) := by
    simp only [zero,Bool.and_eq_true,beq_iff_eq,Bool.not_eq_true',Bool.and_eq_false_iff,not_and_or,
      Bool.not_eq_true,contains_eq_mem,decide_eq_false_iff_not]
  have hzeroRow : (t.zeroRow n).get hop.targetAlias=some (.node n) := h.get_zeroRow base prune row n
  have hzeroRows : zeroRows base hop min max prune emitted row n=if zero then [t.zeroRow n] else [] := rfl
  obtain ⟨walked,hwalks,hstands,hexpand⟩ := expandRow_walks base prune emitted h hn
  change expandRow base hop min max prune emitted row = .ok (_,_ ++ (walked.filter fun step =>
    t.isResult step.tail).map t.hitRow) at hexpand
  refine ⟨_,_,hexpand,?_,?_,?_⟩
  · have : prune=true ∧ zero=true ↔
        prune=true ∧ min=0 ∧ hop.targetLabels.all n.labels.contains=true ∧ n.id∉emitted := by
      tauto
    exact if_congr this rfl rfl
  · intro r hr
    rcases mem_append.mp hr with hr | hr
    · by_cases hz : zero=true
      · have : r=t.zeroRow n := by simpa [hzeroRows,hz] using hr
        exact ⟨_,this ▸ hzeroRow⟩
      · simp [hzeroRows,hz] at hr
    · obtain ⟨step,hstep,rfl⟩ := mem_map.mp hr
      obtain ⟨view,-,hget⟩ := Traversal.get_hitRow hplain (hstands step (mem_filter.mp hstep).1)
      exact ⟨_,hget⟩
  · intro v
    have hz : (∃ r ∈ zeroRows base hop min max prune emitted row n, r.get hop.targetAlias=some v) ↔
        ZeroHop hop min row v ∧ ¬(prune=true ∧ n.id∈emitted) := by
      constructor
      · rintro ⟨r,hr,hget⟩
        by_cases hz : zero=true
        · have hr : r=t.zeroRow n := by simpa [hzeroRows,hz] using hr
          obtain ⟨⟨hmin,hlabels⟩,hem⟩ := hzero.mp hz
          rw [hr,hzeroRow] at hget
          cases hget
          exact ⟨⟨hmin,n,hn,hlabels,rfl⟩,hem⟩
        · simp [hzeroRows,hz] at hr
      · rintro ⟨⟨hmin,n',hn',hlabels,rfl⟩,hem⟩
        cases hn.symm.trans hn'
        have hz : zero=true := hzero.mpr ⟨⟨hmin,hlabels⟩,hem⟩
        exact ⟨t.zeroRow n,by simp [hzeroRows,hz],hzeroRow⟩
    have ha : (∃ r ∈ (walked.filter fun step => t.isResult step.tail).map t.hitRow, r.get hop.targetAlias=some v) ↔
        Arrives base hop max prune row v := by
      have htails : walked.map Step.tail =
          (search (hopEdges base hop (heldBy hop row)) prune max [] [⟨n.id,[]⟩]).map Walk.tail := by
        have := congrArg (map Walk.tail) hwalks
        simpa [map_map,Function.comp_def,Step.walk,t] using this
      constructor
      · rintro ⟨r,hr,hget⟩
        obtain ⟨step,hstep,rfl⟩ := mem_map.mp hr
        obtain ⟨hmem,hres⟩ := mem_filter.mp hstep
        obtain ⟨view,hview,hget'⟩ := Traversal.get_hitRow hplain (hstands step hmem)
        cases hget.symm.trans hget'
        refine ⟨n,step.tail,view,hn,htails ▸ mem_map_of_mem hmem,⟨hview,?_⟩,rfl⟩
        simpa [Traversal.isResult,hview] using hres
      · rintro ⟨n',id,view,hn',hid,⟨hview,hlabels⟩,rfl⟩
        cases hn.symm.trans hn'
        rw [← htails] at hid
        obtain ⟨step,hmem,rfl⟩ := mem_map.mp hid
        obtain ⟨view',hview',hget⟩ := Traversal.get_hitRow hplain (hstands step hmem)
        cases hview.symm.trans hview'
        refine ⟨_,mem_map_of_mem (mem_filter.mpr ⟨hmem,?_⟩),hget⟩
        simpa [Traversal.isResult,hview,t] using hlabels
    rw [← hz,← ha]
    simp only [mem_append,or_and_right,exists_or]

theorem expandRow_null (h : Endpoint hop min max) (hnull : row.get hop.source=some .null) :
    expandRow base hop min max prune emitted row = .ok (emitted,[]) := by
  simp [expandRow,expandRowBy,hnull,h.optional]

def Expandable (hop : Expand) (row : Row) : Prop :=
  (∃ n, row.get hop.source=some (.node n)) ∨ row.get hop.source=some .null

theorem expandable_of_ok {out : List NodeId × List Row}
    (h : expandRow base hop min max prune emitted row = .ok out) : Expandable hop row := by
  unfold expandRow expandRowBy at h
  split at h
  · rename_i n hn
    exact .inl ⟨n,hn⟩
  · rename_i hn
    exact .inr hn
  · cases h

theorem exists_executeExpand (base : Base) (prune : Bool) (emitted : List NodeId) (h : Endpoint hop min max)
    (hrows : ∀ row ∈ rows, Expandable hop row) :
    ∃ out, executeExpand base hop min max prune emitted rows = .ok out := by
  induction rows generalizing emitted with
  | nil => exact ⟨[],rfl⟩
  | cons row rows ih =>
    obtain ⟨hrow,hrest⟩ := forall_mem_cons.mp hrows
    obtain ⟨first,hfirst⟩ : ∃ first, expandRow base hop min max prune emitted row = .ok first := by
      rcases hrow with ⟨n,hn⟩ | hnull
      · obtain ⟨emitted',out,hexpand,-⟩ := expandRow_node base prune emitted h hn
        exact ⟨_,hexpand⟩
      · exact ⟨_,expandRow_null h hnull⟩
    obtain ⟨rest,hrest⟩ := ih first.1 hrest
    exact ⟨_,bind_eq_ok.mpr ⟨first,hfirst,bind_eq_ok.mpr ⟨rest,hrest,rfl⟩⟩⟩

theorem expandable_of_executeExpand (h : executeExpand base hop min max prune emitted rows = .ok out) :
    ∀ row ∈ rows, Expandable hop row := by
  induction rows generalizing emitted out with
  | nil => exact fun row hrow => nomatch hrow
  | cons row rows ih =>
    obtain ⟨first,hfirst,h⟩ := bind_eq_ok.mp h
    obtain ⟨rest,hrest,-⟩ := bind_eq_ok.mp h
    exact forall_mem_cons.mpr ⟨expandable_of_ok hfirst,ih hrest⟩

/-- The nodes that rows start from and that the pattern accepts as its end. -/
def starts (hop : Expand) (rows : List Row) : List NodeValue :=
  rows.filterMap fun row => match row.get hop.source with
    | some (.node n) => if hop.targetLabels.all n.labels.contains then some n else none
    | _ => none

theorem starts_node (hn : row.get hop.source=some (.node n)) : starts hop (row::rows) =
    if hop.targetLabels.all n.labels.contains then n::starts hop rows else starts hop rows := by
  rw [starts,filterMap_cons,hn]
  by_cases hlabels : hop.targetLabels.all n.labels.contains=true
  · simp only [hlabels,if_true]
    rfl
  · simp only [hlabels]
    rfl

theorem starts_null (hnull : row.get hop.source=some .null) : starts hop (row::rows)=starts hop rows := by
  rw [starts,filterMap_cons,hnull]
  rfl

/-- The starts that are returned as they are: a search for endpoints returns a node once, with the value of the
first row that binds it. -/
def zeroStarts (hop : Expand) (prune : Bool) (emitted : List NodeId) (rows : List Row) : List NodeValue :=
  if prune then firsts NodeValue.id emitted (starts hop rows) else starts hop rows

/-- The rows of an expand bind what their starts are, if no hop is asked for, and what they reach by some. -/
theorem executeExpand_values (h : Endpoint hop min max)
    (hok : executeExpand base hop min max prune emitted rows = .ok out) :
    (∀ r ∈ out, ∃ v, r.get hop.targetAlias=some v) ∧ ∀ v, (∃ r ∈ out, r.get hop.targetAlias=some v) ↔
      (min=0 ∧ ∃ n ∈ zeroStarts hop prune emitted rows, v = .node n) ∨
        ∃ row ∈ rows, Arrives base hop max prune row v := by
  induction rows generalizing emitted out with
  | nil =>
    cases hok
    cases prune <;> simp [zeroStarts,starts,firsts]
  | cons row rows ih =>
    obtain ⟨first,hfirst,hok⟩ := bind_eq_ok.mp hok
    obtain ⟨rest,hrest,⟨⟩⟩ := bind_eq_ok.mp hok
    obtain ⟨hbound,hvalues⟩ := ih hrest
    rcases expandable_of_ok hfirst with ⟨n,hn⟩ | hnull
    · obtain ⟨emitted',out,hexpand,hem,hb,hv⟩ := expandRow_node base prune emitted h hn
      cases hexpand.symm.trans hfirst
      have hzero : min=0 → ∀ v, (∃ m ∈ zeroStarts hop prune emitted (row::rows), v = .node m) ↔
          (ZeroHop hop min row v ∧ ¬(prune=true ∧ n.id∈emitted)) ∨
            ∃ m ∈ zeroStarts hop prune emitted' rows, v = .node m := by
        intro hmin v
        have hhop : ZeroHop hop min row v ↔ hop.targetLabels.all n.labels.contains=true ∧ v = .node n := by
          simp [ZeroHop,hmin,hn]
        rw [hem,hhop,zeroStarts,zeroStarts,starts_node hn]
        by_cases hlabels : hop.targetLabels.all n.labels.contains=true
        · by_cases hold : n.id∈emitted
          · cases prune <;> simp [hlabels,hold,hmin,firsts]
          · cases prune <;> simp [hlabels,hold,hmin,firsts]
        · simp [hlabels]
      refine ⟨fun r hr => (mem_append.mp hr).elim (hb r) (hbound r),fun v => ?_⟩
      simp only [mem_append,or_and_right,exists_or,exists_mem_cons_iff,hv,hvalues]
      by_cases hmin : min=0
      · rw [hzero hmin]
        simp only [hmin,true_and]
        rw [or_or_or_comm]
      · have hz : ¬ZeroHop hop min row v := fun hz => hmin hz.1
        simp [hmin,hz]
    · cases (expandRow_null h hnull).symm.trans hfirst
      refine ⟨hbound,fun v => ?_⟩
      have ha : ¬Arrives base hop max prune row v := by
        rintro ⟨n,-,-,hn,-⟩
        simp [hnull] at hn
      simpa only [nil_append,exists_mem_cons_iff,ha,false_or,zeroStarts,starts_null hnull] using hvalues v

end

section

variable (base : Base) (hop : Expand) (max : Nat)

def Reaches (row : Row) (s t : NodeId) : Prop :=
  ∃ rels, Trail (hopEdges base hop (heldBy hop row)) s t rels ∧ 0<rels.length ∧ rels.length ≤ max

/-- The search does not come back to its start: the pattern has no direction, no relationship leads from the node to
itself, and the first node it leads to leads back by the same relationship first, which was used already. -/
def Lost (row : Row) (s : NodeId) : Prop :=
  hop.direction = .both ∧ (∀ k, (k,s)∉hopEdges base hop (heldBy hop row) s) ∧
    returns (hopEdges base hop (heldBy hop row)) s=false

variable {base hop max} {row : Row} {v : RuntimeValue}

theorem arrives_all : Arrives base hop max false row v ↔ ∃ n id view, row.get hop.source=some (.node n) ∧
    Reaches base hop max row n.id id ∧ Result base hop id view ∧ v = .node view := by
  have hmem : ∀ s id, id∈(search (hopEdges base hop (heldBy hop row)) false max [] [⟨s,[]⟩]).map Walk.tail ↔
      Reaches base hop max row s id := by
    intro s id
    constructor
    · intro h
      obtain ⟨w,hw,rfl⟩ := mem_map.mp h
      exact ⟨w.rels,mem_search_all.mp hw⟩
    · rintro ⟨rels,h⟩
      exact mem_map.mpr ⟨⟨id,rels⟩,mem_search_all.mpr h,rfl⟩
  simp [Arrives,hmem]

theorem mem_search_pruned (hmax : 1 < max) {s id : NodeId} (hid : (lookupNodeById base.graph id).isSome) :
    id∈(search (hopEdges base hop (heldBy hop row)) true max [] [⟨s,[]⟩]).map Walk.tail ↔
      Reaches base hop max row s id ∧ ¬(id=s ∧ Lost base hop row s) := by
  have hsym : hop.direction = .both → (lookupNodeById base.graph s).isSome →
      ∀ u x j, (j,u)∈hopEdges base hop (heldBy hop row) x → ∀ k,
        (k,s)∈hopEdges base hop (heldBy hop row) u ↔ (k,u)∈hopEdges base hop (heldBy hop row) s := by
    intro hboth hs u x j hu k
    exact hopEdges_symm hboth hs (mem_hopEdges.mp hu).2.2.2.2
  constructor
  · intro h
    obtain ⟨w,hw,rfl⟩ := mem_map.mp h
    have hstart : ∀ w ∈ [(⟨s,[]⟩ : Walk NodeId EdgeKey)],
        Trail (hopEdges base hop (heldBy hop row)) s w.tail w.rels ∧ w.rels.length=0 := by
      intro w hw
      cases mem_singleton.mp hw
      exact ⟨.nil,rfl⟩
    obtain ⟨htrail,hpos,hlen⟩ := trail_of_mem_search hstart hw
    refine ⟨⟨w.rels,htrail,hpos,by omega⟩,?_⟩
    rintro ⟨heq,hboth,hloop,hreturns⟩
    rw [heq] at h hid
    have := (mem_search_self (hsym hboth hid) hloop).mp h
    simp [hreturns] at this
  · rintro ⟨⟨rels,htrail,hpos,hlen⟩,hfound⟩
    by_cases hP : hop.direction ≠ .both ∨ id≠s
    · refine mem_search_of_trail (P := fun t => hop.direction ≠ .both ∨ t≠s) ?_ (fun t ht => .inr ht) htrail
        hpos hlen hP
      intro t ht u k u' t' hu hu'
      rcases hopEdges_ends hu hu' with h | ⟨h,hboth⟩
      · exact .inl h
      · exact .inr ⟨h,ht.resolve_left (fun hne => hne hboth)⟩
    · obtain ⟨hboth,heq⟩ := not_or.mp hP
      have hboth : hop.direction = .both := not_not.mp hboth
      have heq : id=s := not_not.mp heq
      subst heq
      by_cases hloop : ∃ k, (k,id)∈hopEdges base hop (heldBy hop row) id
      · obtain ⟨k,hk⟩ := hloop
        exact mem_search_loop hk (by omega)
      · refine (mem_search_self (hsym hboth hid) (fun k hk => hloop ⟨k,hk⟩)).mpr ⟨hmax,?_⟩
        by_contra hreturns
        exact hfound ⟨rfl,hboth,fun k hk => hloop ⟨k,hk⟩,by simpa using hreturns⟩

theorem arrives_pruned (hmax : 1 < max) : Arrives base hop max true row v ↔
    ∃ n id view, row.get hop.source=some (.node n) ∧ Reaches base hop max row n.id id ∧
      ¬(id=n.id ∧ Lost base hop row n.id) ∧ Result base hop id view ∧ v = .node view := by
  constructor
  · rintro ⟨n,id,view,hn,hid,hres,hv⟩
    obtain ⟨hreach,hlost⟩ := (mem_search_pruned hmax (by simp [hres.1])).mp hid
    exact ⟨n,id,view,hn,hreach,hlost,hres,hv⟩
  · rintro ⟨n,id,view,hn,hreach,hlost,hres,hv⟩
    exact ⟨n,id,view,hn,(mem_search_pruned hmax (by simp [hres.1])).mpr ⟨hreach,hlost⟩,hres,hv⟩

section

variable {base : Base} {hop : Expand} {min max : Nat} {row : Row} {n : NodeValue} {emitted emitted' : List NodeId}
  {rows out found trails : List Row} {prune : Bool}

def endId (hop : Expand) (r : Row) : Option NodeId :=
  match r.get hop.targetAlias with
  | some (.node n) => some n.id
  | _ => none

def isEnd (base : Base) (hop : Expand) (id : NodeId) : Bool :=
  (lookupNodeById base.graph id).any fun view => hop.targetLabels.all view.labels.contains

/-- The ends of one row, in order. -/
theorem expandRow_ends (h : Endpoint hop min max) (hn : row.get hop.source=some (.node n))
    (hok : expandRow base hop min max prune emitted row = .ok (emitted',out)) :
    (∀ id ∈ emitted', id∈emitted ∨ some id∈out.map (endId hop)) ∧ out.map (endId hop) =
      ((if min=0 ∧ hop.targetLabels.all n.labels.contains=true ∧ ¬(prune=true ∧ n.id∈emitted) then [n.id] else []) ++
        ((search (hopEdges base hop (heldBy hop row)) prune max [] [⟨n.id,[]⟩]).map Walk.tail).filter
          (isEnd base hop)).map some := by
  obtain ⟨walked,hwalks,hstands,hexpand⟩ := expandRow_walks base prune emitted h hn
  obtain ⟨rfl,rfl⟩ := Prod.mk.inj (Except.ok.inj (hok.symm.trans hexpand))
  set t := endpointTraversal base hop min max prune row with ht
  have hzero : (min==0&&hop.targetLabels.all n.labels.contains && !(prune&&emitted.contains n.id))=true ↔
      min=0 ∧ hop.targetLabels.all n.labels.contains=true ∧ ¬(prune=true ∧ n.id∈emitted) := by
    simp only [Bool.and_eq_true,beq_iff_eq,Bool.not_eq_true',Bool.and_eq_false_iff,not_and_or,Bool.not_eq_true,
      contains_eq_mem,decide_eq_false_iff_not,and_assoc]
  have hzeroRow : endId hop (t.zeroRow n)=some n.id := by
    rw [endId,ht,h.get_zeroRow base prune row n]
  have hstart : (zeroRows base hop min max prune emitted row n).map (endId hop)=(if min=0 ∧
      hop.targetLabels.all n.labels.contains=true ∧ ¬(prune=true ∧ n.id∈emitted) then [n.id] else []).map some := by
    rw [zeroRows,if_congr hzero rfl rfl]
    split
    · rw [map_singleton,hzeroRow]
      rfl
    · rfl
  have hends : ((walked.filter fun step => t.isResult step.tail).map t.hitRow).map (endId hop) =
      (((walked.map Step.walk).map Walk.tail).filter (isEnd base hop)).map some := by
    rw [map_map,map_map,filter_map,map_map]
    refine map_congr_left fun step hstep => ?_
    obtain ⟨view,hview,hget⟩ := Traversal.get_hitRow (h.plain base prune row) (hstands step (mem_filter.mp hstep).1)
    have hget : (t.hitRow step).get hop.targetAlias=some (.node view) := hget
    simp only [Function.comp_apply,endId,hget]
    exact congrArg some (lookupNodeById_id hview)
  have hall : (zeroRows base hop min max prune emitted row n ++
      (walked.filter fun step => t.isResult step.tail).map t.hitRow).map (endId hop) = _ := map_append
  rw [hstart,hends,hwalks,← map_append] at hall
  refine ⟨fun id hid => ?_,hall⟩
  split at hid
  · rename_i hnew
    rcases mem_cons.mp hid with rfl | hid
    · rw [hall,if_pos (hzero.mp hnew.2)]
      exact .inr (mem_map_of_mem mem_cons_self)
    · exact .inl hid
  · exact .inl hid

/-- Where the pattern has a direction, the search returns the ends of all trails in the order in which they are met
first. -/
theorem executeExpand_firsts (h : Endpoint hop min max) (hdirected : hop.direction ≠ .both)
    (hall : executeExpand base hop min max false held rows = .ok trails)
    (hfound : executeExpand base hop min max true emitted rows = .ok found) (seen : List (Option NodeId))
    (hseen : ∀ id ∈ emitted, some id∈seen) :
    firsts id seen (found.map (endId hop))=firsts id seen (trails.map (endId hop)) := by
  induction rows generalizing emitted held seen found trails with
  | nil =>
    cases hall
    cases hfound
    rfl
  | cons row rows ih =>
    obtain ⟨⟨held',all⟩,hrowAll,hall⟩ := bind_eq_ok.mp hall
    obtain ⟨restAll,hrestAll,⟨⟩⟩ := bind_eq_ok.mp hall
    obtain ⟨⟨emitted',out⟩,hrow,hfound⟩ := bind_eq_ok.mp hfound
    obtain ⟨rest,hrest,⟨⟩⟩ := bind_eq_ok.mp hfound
    have hfirst : firsts id seen (out.map (endId hop))=firsts id seen (all.map (endId hop)) ∧
        ∀ id ∈ emitted', id∈emitted ∨ some id∈out.map (endId hop) := by
      rcases expandable_of_ok hrow with ⟨n,hn⟩ | hnull
      · obtain ⟨-,hallEnds⟩ := expandRow_ends h hn hrowAll
        obtain ⟨hemitted,hends⟩ := expandRow_ends h hn hrow
        refine ⟨?_,hemitted⟩
        have hedges : ∀ u k t u' t', (k,t)∈hopEdges base hop (heldBy hop row) u →
            (k,t')∈hopEdges base hop (heldBy hop row) u' → t=t' := fun u k t u' t' he he' =>
          (hopEdges_ends he he').resolve_right fun hboth => hdirected hboth.2
        have hsearch : firsts Walk.tail [] (search (hopEdges base hop (heldBy hop row)) false max [] [⟨n.id,[]⟩]) =
            search (hopEdges base hop (heldBy hop row)) true max [] [⟨n.id,[]⟩] :=
          firsts_search hedges (forall_mem_nil _) (by simp) (by simp) []
        have htails : ∀ seen, firsts some seen (((search (hopEdges base hop (heldBy hop row)) true max []
            [⟨n.id,[]⟩]).map Walk.tail).filter (isEnd base hop)) = firsts some seen (((search (hopEdges base hop
              (heldBy hop row)) false max [] [⟨n.id,[]⟩]).map Walk.tail).filter (isEnd base hop)) := by
          intro seen
          have hfilter := firsts_filter (f := some) (fun id : Option NodeId => id.any (isEnd base hop)) seen
          simp only [Option.any_some] at hfilter
          rw [← hsearch,show firsts Walk.tail = firsts (id ∘ Walk.tail) from rfl,← map_firsts,hfilter,hfilter,
            firsts_firsts (f := some) (g := id) (by simp) fun _ _ _ _ heq => congrArg some heq]
        rw [hends,hallEnds,map_firsts,map_firsts]
        refine congrArg (map some) ?_
        change firsts some seen _ = firsts some seen _
        by_cases hzero : min=0 ∧ hop.targetLabels.all n.labels.contains=true
        · by_cases hold : n.id∈emitted
          · simp only [hzero,hold,Bool.false_eq_true,false_and,not_false_eq_true,and_true,not_true_eq_false,if_true,
              and_false,if_false,nil_append,singleton_append]
            rw [firsts,if_pos (hseen _ hold),htails]
          · simp only [hzero,hold,Bool.false_eq_true,false_and,not_false_eq_true,and_true,and_false,if_true]
            rw [firsts_append,firsts_append,htails]
        · rw [if_neg fun h => hzero ⟨h.1,h.2.1⟩,if_neg fun h => hzero ⟨h.1,h.2.1⟩,nil_append,nil_append,htails]
      · cases (expandRow_null h hnull).symm.trans hrow
        cases (expandRow_null h hnull).symm.trans hrowAll
        exact ⟨rfl,fun id hid => .inl hid⟩
    have hmem : ∀ x, x∈(out.map (endId hop)).map id++seen ↔ x∈(all.map (endId hop)).map id++seen := by
      intro x
      rw [← mem_map_firsts_append (f := id),hfirst.1,mem_map_firsts_append]
    have hrest := ih hrestAll hrest ((out.map (endId hop)).map id++seen) fun x hx => by
      rw [map_id]
      exact (hfirst.2 x hx).elim (fun hx => mem_append_right _ (hseen x hx)) (mem_append_left _)
    rw [map_append,map_append,firsts_append,firsts_append,hfirst.1,hrest]
    exact congrArg _ (firsts_congr fun x _ => hmem x)

end
end
end NamiDB.Cypher
