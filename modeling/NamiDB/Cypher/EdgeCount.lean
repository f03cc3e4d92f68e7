import NamiDB.Cypher.TrailRows

/-! A count of the relationships of some types is read from the storage, without a visit to their nodes. -/
namespace NamiDB.Cypher
open Query Storage Lib List Except

def isVariable (expr : Expression) (name : String) : Bool :=
  match expr with
  | .var x => x=name
  | _ => false

def countsRel (relAlias : Option String) : Option Expression → Bool
  | none => true
  | some expr => relAlias.any (isVariable expr)

def plainTypedHop (hop : Expand) : Bool :=
  !hop.optional && !hop.backReference&&hop.pathBinding.isNone&&hop.length.isNone&&hop.targetLabels.isEmpty &&
    hop.shortest = .none&&hop.direction ≠ .both

def tryMatch : LogicalPlan → Option LogicalPlan
  | .aggregate (.expand (.nodeScan none binding [] _) hop) [] [(output,.count arg _)] =>
    match hop.edgeType with
    | some (edgeType::edgeTypes) =>
      if plainTypedHop hop&&countsRel hop.relAlias arg&&binding=hop.source then
        some (.edgeTypeCount (edgeType::edgeTypes) output)
      else none
    | _ => none
  | _ => none

/-- The pass goes through what shapes the result and leaves every other operator alone. -/
def applyEdgeCountPushdown : LogicalPlan → LogicalPlan
  | .project input items distinct discardInputBindings =>
    .project (applyEdgeCountPushdown input) items distinct discardInputBindings
  | .topN input keys skip limit => .topN (applyEdgeCountPushdown input) keys skip limit
  | .distinct input => .distinct (applyEdgeCountPushdown input)
  | .aggregate input groupBy aggregations =>
    (tryMatch (.aggregate input groupBy aggregations)).getD (.aggregate input groupBy aggregations)
  | plan => plan

/-- The plan of a match of one hop from every node whose rows are counted. -/
abbrev countPlan (binding : String) (projection : Option (List String)) (hop : Expand) (output : String)
    (arg : Option Expression) (distinct : Bool) : LogicalPlan :=
  .aggregate (.expand (.nodeScan none binding [] projection) hop) [] [(output,.count arg distinct)]

structure Counted (binding : String) (hop : Expand) (arg : Option Expression) (edgeTypes : List String) : Prop where
  source : binding=hop.source
  types : hop.edgeType=some edgeTypes
  optional : hop.optional=false
  backReference : hop.backReference=false
  pathBinding : hop.pathBinding=none
  length : hop.length=none
  targetLabels : hop.targetLabels=[]
  shortest : hop.shortest = .none
  direction : hop.direction ≠ .both
  arg : ∀ e, arg=some e → ∃ name, hop.relAlias=some name ∧ e = .var name

theorem isVariable_iff : isVariable e name=true ↔ e = .var name := by
  cases e <;> simp [isVariable]

theorem tryMatch_eq_some (h : tryMatch plan=some rewritten) :
    ∃ binding projection hop output arg distinct edgeTypes,
      plan=countPlan binding projection hop output arg distinct ∧
      rewritten = .edgeTypeCount edgeTypes output ∧ Counted binding hop arg edgeTypes := by
  unfold tryMatch at h
  split at h
  · rename_i binding projection hop output arg distinct
    split at h
    · rename_i edgeType edgeTypes htypes
      split at h
      · rename_i hcond
        cases h
        simp only [plainTypedHop,Bool.and_eq_true,Bool.not_eq_true',Option.isNone_iff_eq_none,List.isEmpty_iff,
          decide_eq_true_eq,ne_eq] at hcond
        obtain ⟨⟨⟨⟨⟨⟨⟨⟨hopt,hback⟩,hpath⟩,hlength⟩,hlabels⟩,hshortest⟩,hdir⟩,harg⟩,hsource⟩ := hcond
        refine ⟨binding,projection,hop,output,arg,distinct,_,rfl,rfl,
          ⟨hsource,htypes,hopt,hback,hpath,hlength,hlabels,hshortest,by simpa using hdir,?_⟩⟩
        rintro e rfl
        cases hrel : hop.relAlias with
        | none => simp [countsRel,hrel] at harg
        | some name =>
          refine ⟨name,rfl,isVariable_iff.mp ?_⟩
          simpa [countsRel,hrel] using harg
      · cases h
    · cases h
  · cases h

section

variable {graph : Graph}

theorem ids_scanNodeViews (projection : Option (List String)) :
    ((scanNodeViews graph none [] projection).map NodeValue.id).Nodup ∧
      ∀ id, id∈(scanNodeViews graph none [] projection).map NodeValue.id ↔ (lookupNodeById graph id).isSome := by
  have hids : (scanNodeViews graph none [] projection).map NodeValue.id =
      ((graph.nodes.entries.map nodeValue).insertionSort fun a b => a.id≤b.id).map NodeValue.id := by
    have hkeeps : ∀ n, scanKeeps none [] n=true := fun _ => rfl
    simp [scanNodeViews,filter_eq_self.mpr fun n _ => hkeeps n]
  have hperm : ((scanNodeViews graph none [] projection).map NodeValue.id).Perm graph.nodes.keys := by
    rw [hids]
    refine ((perm_insertionSort _ _).map _).trans ?_
    rw [map_map]
    exact .refl _
  refine ⟨hperm.nodup_iff.mpr graph.nodes.keys_nodup,fun id => ?_⟩
  rw [hperm.mem_iff,← AList.mem_keys,← AList.lookup_isSome,lookupNodeById,Option.isSome_map]

end

section

variable (base : Base) (hop : Expand)

def listedEdges (graph : Graph) (edgeTypes : List String) : List EdgeKey :=
  edgeTypes.flatMap fun t => graph.edges.keys.filter (·.edgeType=t)

def bothEnds (graph : Graph) (k : EdgeKey) : Bool :=
  (lookupNodeById graph k.src).isSome&&(lookupNodeById graph k.dst).isSome

def hoppedEdges (edgeTypes : List String) (ids : List NodeId) : List EdgeKey :=
  ids.flatMap fun id => (neighboursOfAny base.graph edgeTypes hop.direction id).filter fun k =>
    (lookupNodeById base.graph (partnerId k hop.direction id)).isSome

variable {base hop}

theorem hoppedEdges_perm (hdirection : hop.direction ≠ .both) (hnodup : ids.Nodup)
    (hids : ∀ id, id∈ids ↔ (lookupNodeById base.graph id).isSome) :
    (hoppedEdges base hop edgeTypes ids).Perm ((listedEdges base.graph edgeTypes).filter (bothEnds base.graph)) := by
  have hswap : (hoppedEdges base hop edgeTypes ids).Perm (edgeTypes.flatMap fun t => ids.flatMap fun id =>
      (neighboursOf base.graph t hop.direction id).filter fun k =>
        (lookupNodeById base.graph (partnerId k hop.direction id)).isSome) := by
    simp only [hoppedEdges,neighboursOfAny,filter_flatMap]
    exact flatMap_perm_swap edgeTypes ids _
  refine hswap.trans ?_
  rw [listedEdges,filter_flatMap]
  refine .flatMap_left _ fun t _ => ?_
  refine (perm_ext_iff_of_nodup ?_ ((base.graph.edges.keys_nodup.filter _).filter _)).mpr fun k => ?_
  · refine nodup_flatMap.mpr ⟨fun id _ => (nodup_neighboursOf t id).filter _,hnodup.imp fun {a b} hne k ha hb => ?_⟩
    obtain ⟨-,-,hja⟩ := mem_neighboursOf.mp ⟨mem_of_mem_filter ha,rfl⟩
    obtain ⟨-,-,hjb⟩ := mem_neighboursOf.mp ⟨mem_of_mem_filter hb,rfl⟩
    cases hd : hop.direction with
    | right | left => rw [hd] at hja hjb; exact hne (hja.1.symm.trans hjb.1)
    | both => exact hdirection hd
  · have hjoins : ∀ id, k∈neighboursOf base.graph t hop.direction id ↔ _ := fun id =>
      (and_iff_left rfl).symm.trans mem_neighboursOf
    simp only [mem_flatMap,mem_filter,hids,hjoins,decide_eq_true_eq,bothEnds,Bool.and_eq_true]
    cases hd : hop.direction with
    | right | left =>
      simp only [Joins,partnerId,and_true]
      constructor
      · rintro ⟨_,hfrom,⟨hk,ht,rfl⟩,hto⟩
        exact ⟨⟨hk,ht⟩,by assumption,by assumption⟩
      · rintro ⟨⟨hk,ht⟩,hsrc,hdst⟩
        exact ⟨_,by assumption,⟨hk,ht,rfl⟩,by assumption⟩
    | both => exact absurd hd hdirection

end

section

variable {L : Scalars}

theorem length_dedupValues (seen : List (List Char)) (values : List RuntimeValue) :
    (dedupValues L seen values).length≤values.length ∧ ((dedupValues L seen values).length=values.length ↔
        (values.map (fingerprint L.ids)).Nodup ∧ ∀ v ∈ values, fingerprint L.ids v∉seen) := by
  induction values generalizing seen with
  | nil => simp [dedupValues]
  | cons v values ih =>
    rw [dedupValues]
    by_cases hseen : fingerprint L.ids v∈seen
    · rw [if_pos (by simpa using hseen)]
      have := (ih seen).1
      refine ⟨by simp; omega,⟨fun h => ?_,fun h => absurd hseen (h.2 v (.head _))⟩⟩
      simp only [length_cons] at h
      omega
    · rw [if_neg (by simpa using hseen)]
      obtain ⟨hle,hiff⟩ := ih (fingerprint L.ids v::seen)
      refine ⟨by simpa using hle,?_⟩
      simp only [length_cons,Nat.add_right_cancel_iff,hiff,map_cons,nodup_cons,mem_cons,
        forall_eq_or_imp,hseen,not_false_eq_true,true_and,not_or]
      constructor
      · rintro ⟨hnodup,hall⟩
        refine ⟨⟨fun hmem => ?_,hnodup⟩,fun w hw => (hall w hw).2⟩
        obtain ⟨w,hw,heq⟩ := mem_map.mp hmem
        exact (hall w hw).1 heq
      · rintro ⟨⟨hmem,hnodup⟩,hall⟩
        exact ⟨hnodup,fun w hw => ⟨fun heq => hmem (mem_map.mpr ⟨w,hw,heq⟩),hall w hw⟩⟩

end

section

variable {L : Scalars} {params : Params}

theorem groupRows_one (rows before : List Row) :
    groupRows L params [] rows [⟨[],[],before⟩] = .ok [⟨[],[],before++rows⟩] := by
  induction rows generalizing before with
  | nil => simp [groupRows]
  | cons row rows ih =>
    change groupRows L params [] rows (addToGroup [] [] row [⟨[],[],before⟩]) = _
    have hadd : addToGroup [] [] row [⟨[],[],before⟩]=[⟨[],[],before++[row]⟩] := by simp [addToGroup]
    rw [hadd,ih,append_assoc,singleton_append]

theorem executeAggregate_global (aggregations : List (String × AggregateExpr)) (rows : List Row) :
    executeAggregate L C params [] aggregations rows =
      (setAggregates L C params rows aggregations Row.new).map fun row => [row] := by
  cases rows with
  | nil => rfl
  | cons row rows =>
    have hgroups : groupRows L params [] (row::rows) [] = .ok [⟨[],[],row::rows⟩] := groupRows_one rows [row]
    rw [executeAggregate,hgroups]
    change (do
      let bs ← (do let row ← setAggregates L C params (row::rows) aggregations Row.new; pure [row])
      let rest ← ok []
      pure (bs++rest)) = _
    cases setAggregates L C params (row::rows) aggregations Row.new <;> rfl

theorem collectNonNull_bound (value : Row → RuntimeValue)
    (h : ∀ row ∈ rows, row.get name=some (value row) ∧ isNullValue (value row)=false) :
    collectNonNull L params (.var name) distinct rows =
      .ok (if distinct then dedupValues L [] (rows.map value) else rows.map value) := by
  have hvalues : gather (fun row => do
      let v ← evalRow L params (.var name) row
      pure (if isNullValue v then [] else [v])) rows = .ok (rows.map value) := by
    induction rows with
    | nil => rfl
    | cons row rows ih =>
      obtain ⟨⟨hget,hnull⟩,hrest⟩ := forall_mem_cons.mp h
      have hone : evalRow L params (.var name) row = .ok (value row) := by simp [evaluate,hget]
      rw [gather,ih hrest,hone]
      simp only [bind,Except.bind,pure,hnull]
      rfl
  rw [collectNonNull,hvalues]
  rfl

end

section

variable {L : Scalars} {params : Params} {base : Base} {binding : String} {hop : Expand} {arg : Option Expression}
  {edgeTypes : List String} {h : EdgeKey × NodeId} {nodes : List NodeValue} {view : NodeValue}

def farEnd (direction : RelationshipDirection) (k : EdgeKey) : NodeId :=
  match direction with
  | .left => k.src
  | _ => k.dst

/-- What tells two rows of the count apart: a relationship that is bound under the name of the target is lost. -/
def countedKey (hop : Expand) (k : EdgeKey) : NodeId ⊕ EdgeKey :=
  if hop.relAlias=some hop.targetAlias then .inl (farEnd hop.direction k) else .inr k

def hopValue (base : Base) (hop : Expand) (h : EdgeKey × NodeId) : RuntimeValue :=
  if hop.relAlias=some hop.targetAlias then (lookupNodeById base.graph h.2).elim .null .node
  else .rel (relValue base.graph h.1)

def scanRow (binding : String) (n : NodeValue) : Row := Row.new.set binding (.node n)

def scannedHops (base : Base) (hop : Expand) (nodes : List NodeValue) : List (EdgeKey × NodeId) :=
  nodes.flatMap fun n => oneHop base hop (scanRow hop.source n) n.id

def scannedRows (base : Base) (hop : Expand) (nodes : List NodeValue) : List Row :=
  nodes.flatMap fun n =>
    (oneHop base hop (scanRow hop.source n) n.id).map fun h => trailRow base hop (scanRow hop.source n) n [h]

theorem boundRelKeysAll_nodes (h : ∀ v ∈ values, ∃ n, v = .node n) : boundRelKeysAll values=[] := by
  induction values with
  | nil => rfl
  | cons v values ih =>
    obtain ⟨⟨n,rfl⟩,hrest⟩ := forall_mem_cons.mp h
    rw [boundRelKeysAll,ih hrest]
    rfl

theorem heldBy_scanRow (n : NodeValue) : heldBy hop (scanRow binding n)=[] := by
  refine boundRelKeysAll_nodes fun v hv => ?_
  obtain ⟨name,-,hget⟩ := mem_filterMap.mp hv
  rw [scanRow,Row.get_set] at hget
  split_ifs at hget
  · exact ⟨n,(Option.some.inj hget).symm⟩
  · cases hget

section
variable (hc : Counted binding hop arg edgeTypes)
include hc

theorem mem_scannedHops (hh : h∈scannedHops base hop nodes) :
    h.2=farEnd hop.direction h.1 ∧ ∃ view, lookupNodeById base.graph h.2=some view ∧ view.id=h.2 := by
  obtain ⟨n,-,hone⟩ := mem_flatMap.mp hh
  obtain ⟨hmem,-⟩ := mem_filter.mp hone
  obtain ⟨-,-,hj,-,hsome⟩ := mem_hopEdges.mp hmem
  refine ⟨?_,?_⟩
  · cases hd : hop.direction with
    | right | left => rw [hd] at hj; exact hj.2.symm
    | both => exact absurd hd hc.direction
  · obtain ⟨view,hview⟩ := Option.isSome_iff_exists.mp hsome
    refine ⟨view,hview,?_⟩
    obtain ⟨record,-,rfl⟩ := Option.map_eq_some_iff.mp hview
    rfl

theorem keys_scannedHops (nodes : List NodeValue) :
    (scannedHops base hop nodes).map Prod.fst=hoppedEdges base hop edgeTypes (nodes.map NodeValue.id) := by
  rw [scannedHops,map_flatMap,hoppedEdges,flatMap_map]
  refine flatMap_congr fun n _ => ?_
  rw [oneHop,hopEdges,heldBy_scanRow,hc.targetLabels,filter_filterMap,map_filterMap]
  rw [show resolveEdgeTypes base hop.edgeType=edgeTypes by rw [hc.types]; rfl,← filterMap_eq_filter]
  refine filterMap_congr fun e _ => ?_
  cases hview : lookupNodeById base.graph (partnerId e hop.direction n.id) with
  | none => simp [Option.guard,hview]
  | some view => simp [Option.guard,Option.filter,hview]

theorem get_hopValue (hrel : hop.relAlias=some name) (row : Row) (n : NodeValue)
    (hview : lookupNodeById base.graph h.2=some view) :
    (trailRow base hop row n [h]).get name=some (hopValue base hop h) := by
  have hend : endNode base hop row n [h]=some view := by simp [endNode,hc.backReference,endOf,hview]
  simp only [trailRow,hc.length,hrel,hc.pathBinding,bindEnd,hc.backReference,hend,Bool.false_eq_true,if_false,
    Option.elim_some,Row.get_set,hopValue,Option.some.injEq,hview]
  by_cases hname : name=hop.targetAlias
  · simp [hname]
  · simp [hname]

end

theorem isNullValue_hopValue (hview : lookupNodeById base.graph h.2=some view) :
    isNullValue (hopValue base hop h)=false := by
  rw [hopValue,hview]
  split_ifs <;> rfl

section
variable (hc : Counted binding hop arg edgeTypes)
include hc

theorem fingerprint_hopValue (hh : h∈scannedHops base hop nodes) (hh' : h'∈scannedHops base hop nodes) :
    fingerprint L.ids (hopValue base hop h)=fingerprint L.ids (hopValue base hop h') ↔
      countedKey hop h.1=countedKey hop h'.1 := by
  obtain ⟨hfar,view,hview,hid⟩ := mem_scannedHops hc hh
  obtain ⟨hfar',view',hview',hid'⟩ := mem_scannedHops hc hh'
  rw [fingerprint_eq_iff,hopValue,hopValue,countedKey,countedKey,hview,hview']
  split_ifs
  · simp [sameKey,hid,hid',hfar,hfar']
  · obtain ⟨⟨type,src,dst⟩,_⟩ := h
    obtain ⟨⟨type',src',dst'⟩,_⟩ := h'
    simp [sameKey,relValue,and_assoc]

theorem execute_scanned (projection : Option (List String)) (outer : Option Row) :
    execute L C params base (.expand (.nodeScan none binding [] projection) hop) outer none =
      .ok (scannedRows base hop (scanNodeViews base.graph none [] projection)) := by
  rw [execute,execute,hc.source]
  exact expandRows_single hc.shortest hc.length hc.backReference hc.optional fun n _ => by simp

theorem execute_counted (projection : Option (List String)) (output : String)
    (distinct : Bool) (outer : Option Row) (cap : Option Nat) :
    let hops := scannedHops base hop (scanNodeViews base.graph none [] projection)
    execute L C params base (countPlan binding projection hop output arg distinct) outer cap =
      .ok [Row.new.set output (.integer (if distinct&&arg.isSome then
        (dedupValues L [] (hops.map (hopValue base hop))).length else hops.length : Nat))] := by
  set nodes := scanNodeViews base.graph none [] projection with hnodes
  intro hops
  rw [execute]
  rw [execute_scanned hc,← hnodes]
  change executeAggregate L C params [] [(output,.count arg distinct)] _ = _
  rw [executeAggregate_global]
  have hlength : (scannedRows base hop nodes).length=hops.length := by
    simp [scannedRows,hops,scannedHops,length_flatMap]
  cases arg with
  | none => simp [setAggregates,aggregateOver,hlength]; rfl
  | some e =>
    obtain ⟨name,hrel,rfl⟩ := hc.arg e rfl
    have hget : ∀ n ∈ nodes, ∀ h ∈ oneHop base hop (scanRow hop.source n) n.id,
        (trailRow base hop (scanRow hop.source n) n [h]).get name=some (hopValue base hop h) ∧
          isNullValue (hopValue base hop h)=false := by
      intro n hn h hh
      obtain ⟨-,view,hview,-⟩ := mem_scannedHops hc (mem_flatMap.mpr ⟨n,hn,hh⟩)
      exact ⟨get_hopValue hc hrel _ n hview,isNullValue_hopValue hview⟩
    have hvalues : (scannedRows base hop nodes).map (fun row => (row.get name).getD .null) =
        hops.map (hopValue base hop) := by
      simp only [hops]
      rw [scannedRows,map_flatMap,scannedHops,map_flatMap]
      refine flatMap_congr fun n hn => ?_
      rw [map_map]
      exact map_congr_left fun h hh => by simp [(hget n hn h hh).1]
    have hcollect : collectNonNull L params (.var name) distinct (scannedRows base hop nodes)=_ :=
      collectNonNull_bound (fun row => (row.get name).getD .null) fun row hrow => by
        obtain ⟨n,hn,hrow⟩ := mem_flatMap.mp hrow
        obtain ⟨h,hh,rfl⟩ := mem_map.mp hrow
        obtain ⟨hsome,hnull⟩ := hget n hn h hh
        rw [hsome]
        exact ⟨rfl,hnull⟩
    rw [hvalues] at hcollect
    simp only [setAggregates,foldlM_cons,aggregateOver,hcollect,Option.isSome_some,Bool.and_true]
    cases distinct with
    | false => simp; rfl
    | true => rfl

end

/-- When the count by type and the count of the rows agree: every relationship of the types has both its nodes, and
a count of different relationships sees each of them once and under its own name. -/
def CountsAlike (base : Base) (hop : Expand) (arg : Option Expression) (distinct : Bool)
    (edgeTypes : List String) : Prop :=
  (∀ k ∈ base.graph.edges, k.edgeType∈edgeTypes →
    (lookupNodeById base.graph k.src).isSome ∧ (lookupNodeById base.graph k.dst).isSome) ∧
  (distinct=true → arg.isSome=true → ((listedEdges base.graph edgeTypes).map (countedKey hop)).Nodup)

theorem execute_edgeTypeCount_iff {binding output : String} {projection : Option (List String)} {hop : Expand}
    {arg : Option Expression} {distinct : Bool} {edgeTypes : List String} (outer : Option Row) (cap : Option Nat)
    (hmatch : tryMatch (countPlan binding projection hop output arg distinct) =
      some (.edgeTypeCount edgeTypes output)) :
    execute L C params base (.edgeTypeCount edgeTypes output) outer cap =
        execute L C params base (countPlan binding projection hop output arg distinct) outer cap ↔
      CountsAlike base hop arg distinct edgeTypes := by
  obtain ⟨_,_,_,_,_,_,_,hplan,hrewritten,hc⟩ := tryMatch_eq_some hmatch
  cases hplan
  cases hrewritten
  set hops := scannedHops base hop (scanNodeViews base.graph none [] projection) with hhops
  obtain ⟨hnodup,hids⟩ : ((scanNodeViews base.graph none [] projection).map NodeValue.id).Nodup ∧ _ :=
    ids_scanNodeViews projection
  have hperm : (hops.map Prod.fst).Perm ((listedEdges base.graph edgeTypes).filter (bothEnds base.graph)) := by
    rw [hhops,keys_scannedHops hc]
    exact hoppedEdges_perm hc.direction hnodup hids
  have hlength : hops.length=((listedEdges base.graph edgeTypes).filter (bothEnds base.graph)).length := by
    simpa using hperm.length_eq
  have hends : hops.length=(listedEdges base.graph edgeTypes).length ↔
      ∀ k ∈ base.graph.edges, k.edgeType∈edgeTypes →
        (lookupNodeById base.graph k.src).isSome ∧ (lookupNodeById base.graph k.dst).isSome := by
    rw [hlength,length_filter_eq_length_iff]
    simp only [listedEdges,mem_flatMap,mem_filter,decide_eq_true_eq,bothEnds,Bool.and_eq_true]
    constructor
    · intro h k hk htype
      exact h k ⟨_,htype,hk,rfl⟩
    · rintro h k ⟨_,htype,hk,rfl⟩
      exact h k hk htype
  have hle : hops.length≤(listedEdges base.graph edgeTypes).length := hlength ▸ length_filter_le _ _
  have htotal : (edgeTypes.map fun t => (base.graph.edges.keys.filter (·.edgeType=t)).length).sum =
      (listedEdges base.graph edgeTypes).length := (length_flatMap).symm
  have hrow : ∀ m n : Nat, (ok [Row.new.set output (.integer m)] : Except EvalError (List Row)) =
      .ok [Row.new.set output (.integer n)] ↔ m=n := by
    intro m n
    constructor
    · intro h
      have := congrArg (fun r : Row => r.get output) (head_eq_of_cons_eq (ok.inj h))
      simpa using this
    · rintro rfl
      rfl
  rw [execute_counted hc,← hhops,execute,htotal,hrow,CountsAlike,← hends]
  by_cases hdistinct : (distinct&&arg.isSome)=true
  · rw [if_pos hdistinct]
    obtain ⟨hdedup,hiff⟩ := length_dedupValues (L := L) [] (hops.map (hopValue base hop))
    rw [length_map] at hdedup hiff
    have hsame : ((hops.map (hopValue base hop)).map (fingerprint L.ids)).Nodup ↔
        ((hops.map Prod.fst).map (countedKey hop)).Nodup := by
      simp only [List.Nodup,pairwise_map]
      exact Pairwise.iff_of_mem fun hh hh' => not_congr (fingerprint_hopValue hc hh hh')
    have hlisted : hops.length=(listedEdges base.graph edgeTypes).length →
        (((hops.map Prod.fst).map (countedKey hop)).Nodup ↔
          ((listedEdges base.graph edgeTypes).map (countedKey hop)).Nodup) := by
      intro hall
      rw [hlength,length_filter_eq_length_iff] at hall
      rw [filter_eq_self.mpr hall] at hperm
      exact (hperm.map (countedKey hop)).nodup_iff
    constructor
    · intro h
      have hall : hops.length=(listedEdges base.graph edgeTypes).length := by omega
      exact ⟨hall,fun _ _ => (hlisted hall).mp (hsame.mp (hiff.mp (by omega)).1)⟩
    · rintro ⟨hall,hkeys⟩
      rw [Bool.and_eq_true] at hdistinct
      have := hiff.mpr ⟨hsame.mpr ((hlisted hall).mpr (hkeys hdistinct.1 hdistinct.2)),fun _ _ => not_mem_nil⟩
      omega
  · rw [if_neg hdistinct]
    have hfree : ¬ (distinct=true ∧ arg.isSome=true) := by simpa using hdistinct
    constructor
    · exact fun h => ⟨h.symm,fun h1 h2 => absurd ⟨h1,h2⟩ hfree⟩
    · exact fun h => h.1.symm

def countBelow : LogicalPlan → Option LogicalPlan
  | .project input _ _ _ | .topN input _ _ _ | .distinct input => countBelow input
  | .aggregate input groupBy aggregations => some (.aggregate input groupBy aggregations)
  | _ => none

theorem applyEdgeCountPushdown_aggregate (input : LogicalPlan) (groupBy : List (Expression × String))
    (aggregations : List (String × AggregateExpr)) :
    applyEdgeCountPushdown (.aggregate input groupBy aggregations) = .aggregate input groupBy aggregations ∨
      ∃ edgeTypes output, applyEdgeCountPushdown (.aggregate input groupBy aggregations) =
        .edgeTypeCount edgeTypes output := by
  rw [applyEdgeCountPushdown]
  cases h : tryMatch (.aggregate input groupBy aggregations) with
  | none => exact .inl rfl
  | some rewritten =>
    obtain ⟨_,_,_,output,_,_,edgeTypes,-,rfl,-⟩ := tryMatch_eq_some h
    exact .inr ⟨edgeTypes,output,rfl⟩

theorem endpointOf_applyEdgeCountPushdown (outer : Option Row) (input : LogicalPlan) :
    endpointOf L C params base outer (applyEdgeCountPushdown input)=endpointOf L C params base outer input := by
  cases input with
  | aggregate input groupBy aggregations =>
    rcases applyEdgeCountPushdown_aggregate input groupBy aggregations with h | ⟨_,_,h⟩
    · rw [h]
    · rw [h]
      rfl
  | topN input keys skip limit =>
    cases input with
    | aggregate input groupBy aggregations =>
      rw [applyEdgeCountPushdown]
      rcases applyEdgeCountPushdown_aggregate input groupBy aggregations with h | ⟨_,_,h⟩
      · rw [h]
      · rw [h]
        rfl
    | _ => rfl
  | _ => rfl

theorem indexedRows_applyEdgeCountPushdown (input : LogicalPlan) (keys : List OrderKey) (skip limit : Nat) :
    indexedRows C base (applyEdgeCountPushdown input) keys skip limit=indexedRows C base input keys skip limit := by
  cases input with
  | aggregate input groupBy aggregations =>
    rcases applyEdgeCountPushdown_aggregate input groupBy aggregations with h | ⟨_,_,h⟩
    · rw [h]
    · rw [h]
      rfl
  | _ => rfl

/-- The pass keeps the rows of every plan in which the count that it replaces agrees with the rows. -/
theorem execute_applyEdgeCountPushdown (plan : LogicalPlan)
    (hcount : ∀ binding projection hop output arg distinct edgeTypes,
      countBelow plan=some (countPlan binding projection hop output arg distinct) →
      tryMatch (countPlan binding projection hop output arg distinct)=some (.edgeTypeCount edgeTypes output) →
        CountsAlike base hop arg distinct edgeTypes)
    (outer : Option Row) (cap : Option Nat) :
    execute L C params base (applyEdgeCountPushdown plan) outer cap=execute L C params base plan outer cap := by
  induction plan generalizing cap with
  | project input items distinct discardInputBindings ih =>
    rw [applyEdgeCountPushdown,execute_project_eq,execute_project_eq,endpointOf_applyEdgeCountPushdown,ih hcount]
  | topN input keys skip limit ih =>
    simp only [applyEdgeCountPushdown,execute,indexedRows_applyEdgeCountPushdown,ih hcount]
  | distinct input ih => rw [applyEdgeCountPushdown,execute,execute,ih hcount]
  | aggregate input groupBy aggregations =>
    rw [applyEdgeCountPushdown]
    cases h : tryMatch (.aggregate input groupBy aggregations) with
    | none => rfl
    | some rewritten =>
      obtain ⟨_,_,_,_,_,_,_,hplan,rfl,-⟩ := tryMatch_eq_some h
      rw [hplan] at h hcount ⊢
      exact (execute_edgeTypeCount_iff outer cap h).mpr (hcount _ _ _ _ _ _ _ rfl h)
  | _ => rfl

/-- The count by type is the row of the scan and the hop it replaces exactly then, and a plan that the pass rewrites
below its projections, sorts and `DISTINCT` keeps its rows then. -/
theorem edgeTypeCount_iff (L : Scalars) (C : Callees) (params : Params) (base : Base) (binding : String)
    (projection : Option (List String)) (hop : Expand) (output : String) (arg : Option Expression) (distinct : Bool)
    (edgeTypes : List String) (outer : Option Row) (cap : Option Nat)
    (hmatch : tryMatch (countPlan binding projection hop output arg distinct) =
      some (.edgeTypeCount edgeTypes output)) :
    (execute L C params base (.edgeTypeCount edgeTypes output) outer cap =
        execute L C params base (countPlan binding projection hop output arg distinct) outer cap ↔
      CountsAlike base hop arg distinct edgeTypes) ∧
    ∀ plan, countBelow plan = some (countPlan binding projection hop output arg distinct) →
      CountsAlike base hop arg distinct edgeTypes →
        execute L C params base (applyEdgeCountPushdown plan) outer cap = execute L C params base plan outer cap := by
  refine ⟨execute_edgeTypeCount_iff outer cap hmatch,fun plan hbelow halike => ?_⟩
  refine execute_applyEdgeCountPushdown plan (fun _ _ _ _ _ _ _ hplan hmatch' => ?_) outer cap
  cases hbelow.symm.trans hplan
  cases hmatch.symm.trans hmatch'
  exact halike

def anyHop : Expand where
  source := "a"
  edgeType := some ["R"]
  direction := .right
  relAlias := none
  targetAlias := "b"
  targetLabels := []
  length := none
  optional := false
  backReference := false
  shortest := .none
  pathBinding := none
  uniqueRels := []

def countHops : LogicalPlan := countPlan "a" none anyHop "n" none false

theorem edgeTypeCount_circle :
    execute Scalars.bare Callees.none (fun _ => none) circle (.edgeTypeCount ["R"] "n") none none =
        execute Scalars.bare Callees.none (fun _ => none) circle countHops none none ∧
      execute Scalars.bare Callees.none (fun _ => none) circle (applyEdgeCountPushdown (.distinct countHops)) none
          none = execute Scalars.bare Callees.none (fun _ => none) circle (.distinct countHops) none none := by
  have halike : CountsAlike circle anyHop none false ["R"] := ⟨by decide,nofun⟩
  obtain ⟨hiff,hpass⟩ := edgeTypeCount_iff Scalars.bare Callees.none (fun _ => none) circle "a" none anyHop "n" none
    false ["R"] none none rfl
  exact ⟨hiff.mpr halike,hpass (.distinct countHops) rfl halike⟩

/-- Two relationships of which one node is gone are counted, although no match has them. -/
theorem edgeTypeCount_counts_dangling : applyEdgeCountPushdown countHops = .edgeTypeCount ["R"] "n" ∧
    (execute Scalars.bare Callees.none (fun _ => none) gapped (applyEdgeCountPushdown countHops) none none).map
      (·.map (·.get "n")) = .ok [some (.integer 2)] ∧
    (execute Scalars.bare Callees.none (fun _ => none) gapped countHops none none).map (·.map (·.get "n")) =
      .ok [some (.integer 0)] := by
  refine ⟨rfl,rfl,rfl⟩

end
end NamiDB.Cypher
