import NamiDB.Cypher.PairSearch
import NamiDB.Cypher.Walker

/-! The expand without a mode for shortest paths returns one row for each trail within its bounds. -/
namespace NamiDB.Cypher
open Query Storage Lib List

namespace Traversal

section

variable (t : Traversal) (start : Step)

def hopBy (u : NodeId) (e : EdgeKey) : Option (EdgeKey × NodeId) :=
  if t.bound.contains e then none
  else (t.reached (partnerId e t.hop.direction u)).map fun _ => (e,partnerId e t.hop.direction u)

def hopsAt (u : NodeId) : List (EdgeKey × NodeId) := (t.edgesOf u).filterMap (t.hopBy u)

def after (hops : List (EdgeKey × NodeId)) : Step :=
  hops.foldl (fun step h => t.extend step h.1 h.2 ((t.reached h.2).bind Prod.fst)) start

/-- A trail to the node makes a row, if it is long enough. -/
def keepsEnd (v : NodeId) : Bool := t.matchesLabels&&(t.reached v).any Prod.snd&&t.existing.all (·=v)

variable {t start} {depth : Nat} {visited : List NodeId} {st : LevelState} {hops : List (EdgeKey × NodeId)}

@[simp] theorem after_nil : t.after start []=start := rfl

theorem after_concat (h : EdgeKey × NodeId) :
    t.after start (hops++[h])=t.extend (t.after start hops) h.1 h.2 ((t.reached h.2).bind Prod.fst) := by
  simp [after]

theorem tail_after : (t.after start hops).tail=endOf start.tail hops := by
  induction hops using reverseRecOn with
  | nil => rfl
  | append_singleton hops h _ => rw [after_concat,endOf_concat]; rfl

theorem rels_after (hmax : 1<t.max) : (t.after start hops).rels=start.rels++hops.map Prod.fst := by
  induction hops using reverseRecOn with
  | nil => simp
  | append_singleton hops h ih =>
    rw [after_concat]
    simp [extend,hmax,ih]

def grow (t : Traversal) (start : Step) (depth : Nat) (grown : List (List (EdgeKey × NodeId))) (st : LevelState) :
    LevelState where
  seen := st.seen
  next := st.next++if depth<t.max then grown.map (t.after start) else []
  hits := st.hits++(grown.filter fun hops => decide (Nat.max t.min 1≤depth)&&t.keepsEnd (endOf start.tail hops)).map
    fun hops => t.hitRow (t.after start hops)

theorem grow_nil : t.grow start depth [] st=st := by simp [grow]

theorem grow_append (a b : List (List (EdgeKey × NodeId))) :
    t.grow start depth (a++b) st=t.grow start depth b (t.grow start depth a st) := by
  simp only [grow,map_append,append_assoc]
  split_ifs <;> simp

theorem traverse_nil (n : Nat) (hits : List Row) : t.traverse n depth visited [] hits=hits := by
  cases n with
  | zero => rfl
  | succ n => simp [traverse,visitLevel]

def kept (t : Traversal) (s : NodeId) (n : Nat) : List (List (EdgeKey × NodeId)) :=
  (trails t.hopsAt s n).filter fun hops => decide (Nat.max t.min 1≤n)&&t.keepsEnd (endOf s hops)

section

variable (hprune : t.prune=false) (hstart : start.rels=[])

include hprune hstart

theorem visitEdge_all (hmax : 1<t.max ∨ hops=[]) (e : EdgeKey) :
    t.visitEdge depth visited st (t.after start hops) e=t.grow start depth
      (((t.hopBy (endOf start.tail hops) e).toList.filter fun h => h.1∉hops.map Prod.fst).map fun h => hops++[h])
      st := by
  have hused : (decide (1<t.max)&&(t.after start hops).rels.contains e)=true ↔ e∈hops.map Prod.fst := by
    rcases hmax with hmax | rfl
    · simp [hmax,rels_after hmax,hstart]
    · simp [hstart]
  simp only [visitEdge,hprune,Bool.false_and,Bool.false_eq_true,if_false,tail_after,hopBy]
  by_cases hb : t.bound.contains e=true
  · rw [if_pos hb,if_pos hb]
    simp [grow_nil]
  · rw [if_neg hb,if_neg hb]
    by_cases hu : e∈hops.map Prod.fst
    · rw [if_pos (hused.mpr hu)]
      cases t.reached (partnerId e t.hop.direction (endOf start.tail hops)) <;> simp [hu,grow_nil]
    · rw [if_neg (hused.not.mpr hu)]
      cases hreached : t.reached (partnerId e t.hop.direction (endOf start.tail hops)) with
      | none => simp [grow_nil]
      | some r =>
        have hone : ([(e,partnerId e t.hop.direction (endOf start.tail hops))].filter
            fun h => h.1∉hops.map Prod.fst)=[(e,partnerId e t.hop.direction (endOf start.tail hops))] :=
          filter_cons_of_pos (decide_eq_true hu)
        simp only [Option.map_some,Option.toList_some,hone,grow,map_singleton,filter_cons,filter_nil,
          after_concat,endOf_concat,hreached,Option.bind_some,keepsEnd,Option.any_some]
        congr 1
        · split_ifs <;> simp
        · split_ifs <;> simp [after_concat,hreached]

theorem foldl_visitEdge (hmax : 1<t.max ∨ hops=[]) (edges : List EdgeKey) (st : LevelState) :
    (edges.map fun e => (t.after start hops,e)).foldl (fun st a => t.visitEdge depth visited st a.1 a.2) st =
      t.grow start depth (((edges.filterMap (t.hopBy (endOf start.tail hops))).filter
        fun h => h.1∉hops.map Prod.fst).map fun h => hops++[h]) st := by
  induction edges generalizing st with
  | nil => exact grow_nil.symm
  | cons e edges ih =>
    rw [map_cons,foldl_cons,visitEdge_all hprune hstart hmax,ih,← grow_append,← map_append,
      ← filter_append]
    cases h : t.hopBy (endOf start.tail hops) e with
    | none => rw [filterMap_cons_none h]; rfl
    | some _ => rw [filterMap_cons_some h]; rfl

theorem visitLevel_all {walks : List (List (EdgeKey × NodeId))}
    (hmax : 1<t.max ∨ ∀ hops ∈ walks, hops=[]) (hits : List Row) :
    t.visitLevel depth visited (walks.map (t.after start)) hits =
      t.grow start depth (walks.flatMap (longer t.hopsAt start.tail)) ⟨[],[],hits⟩ := by
  have hall : ∀ st, ((walks.map (t.after start)).flatMap fun step => (t.edgesOf step.tail).map fun e => (step,e)).foldl
      (fun st a => t.visitEdge depth visited st a.1 a.2) st =
        t.grow start depth (walks.flatMap (longer t.hopsAt start.tail)) st := by
    induction walks with
    | nil => intro st; exact grow_nil.symm
    | cons hops walks ih =>
      intro st
      rw [map_cons,flatMap_cons,foldl_append,
        foldl_visitEdge hprune hstart (hmax.imp_right fun h => h hops (.head _)),tail_after,
        ih (hmax.imp_right fun h w hw => h w (.tail _ hw)),flatMap_cons,grow_append]
      rfl
  exact hall _

theorem traverse_all (hdepth : depth+n=t.max) (hits : List Row) :
    t.traverse n (depth+1) visited ((trails t.hopsAt start.tail depth).map (t.after start)) hits =
      hits++((range n).flatMap fun i => t.kept start.tail (depth+1+i)).map fun hops =>
        t.hitRow (t.after start hops) := by
  induction n generalizing depth visited hits with
  | zero => simp [traverse]
  | succ n ih =>
    have hshort : 1<t.max ∨ ∀ hops ∈ trails t.hopsAt start.tail depth, hops=[] := by
      by_cases hmax : 1<t.max
      · exact .inl hmax
      · obtain rfl : depth=0 := by omega
        exact .inr fun hops hmem => mem_singleton.mp hmem
    rw [traverse,visitLevel_all hprune hstart hshort,range_succ_eq_map,flatMap_cons,flatMap_map]
    have hlevel : (trails t.hopsAt start.tail depth).flatMap (longer t.hopsAt start.tail) =
        trails t.hopsAt start.tail (depth+1) := rfl
    have hnext : (fun i => t.kept start.tail (depth+1+Nat.succ i))=fun i => t.kept start.tail (depth+1+1+i) :=
      funext fun i => congrArg (t.kept start.tail) (by omega)
    simp only [hlevel,hnext,grow,hprune,nil_append,map_append]
    change (if _ then hits++(t.kept start.tail (depth+1)).map _ else traverse _ _ _ _ _ _) = _
    by_cases hlast : depth+1<t.max
    · rw [if_pos hlast]
      by_cases hnone : trails t.hopsAt start.tail (depth+1)=[]
      · have hrest : ((range n).flatMap fun i => t.kept start.tail (depth+1+1+i))=[] := by
          refine flatMap_eq_nil_iff.mpr fun i _ => ?_
          rw [kept,trails_eq_nil hnone (by omega),filter_nil]
        simp [hnone,hrest]
      · rw [if_neg (by simpa using hnone)]
        change traverse _ _ _ _ _ (hits++(t.kept start.tail (depth+1)).map _) = _
        rw [ih (by omega),append_assoc]
    · obtain rfl : n=0 := by omega
      simp [hlast]

end
end
end Traversal

open Traversal (keepsEnd extend reached isResult after_concat trailNode edgesOf kept hopsAt hopBy)

section

variable {base : Base} {hop : Expand} {min max : Nat} {row : Row} {n : NodeValue} {existing : Option NodeId}
  {matchesLabels : Bool} {hops : List (EdgeKey × NodeId)} {t : Traversal}

theorem boundTarget_cases (h : boundTarget hop row = .ok (existing,matchesLabels)) :
    hop.backReference=false ∧ existing=none ∧ matchesLabels=true ∨
    (∃ m, hop.backReference=true ∧ row.get hop.targetAlias=some (.node m) ∧ existing=some m.id ∧
      matchesLabels=hop.targetLabels.all m.labels.contains) ∨
    hop.backReference=true ∧ row.get hop.targetAlias=some .null ∧ existing=none ∧ matchesLabels=false := by
  grind [boundTarget]

def rowTraversal (base : Base) (hop : Expand) (min max : Nat) (row : Row) (existing : Option NodeId)
    (matchesLabels : Bool) : Traversal :=
  ⟨base,hop,min,max,false,heldBy hop row,existing,matchesLabels,row⟩

def startAt (hop : Expand) (row : Row) (n : NodeValue) : Step :=
  ⟨n.id,row,if hop.pathBinding.isSome then [.node n] else [],[],[]⟩

def zeroHop (hop : Expand) (min : Nat) (n : NodeValue) (existing : Option NodeId) (matchesLabels : Bool) : Bool :=
  min==0&&matchesLabels&&hop.targetLabels.all n.labels.contains&&existing.all (·=n.id)

def rowTrails (base : Base) (hop : Expand) (min max : Nat) (row : Row) (n : NodeValue) (existing : Option NodeId)
    (matchesLabels : Bool) : List (List (EdgeKey × NodeId)) :=
  (if zeroHop hop min n existing matchesLabels then [[]] else []) ++
    (range max).flatMap fun i => (rowTraversal base hop min max row existing matchesLabels).kept n.id (i+1)

def rowAfter (t : Traversal) (n : NodeValue) : List (EdgeKey × NodeId) → Row
  | [] => t.zeroRow n
  | hops => t.hitRow (t.after (startAt t.hop t.seed n) hops)

theorem rowAfter_ne_nil (h : hops≠[]) : rowAfter t n hops=t.hitRow (t.after (startAt t.hop t.seed n) hops) := by
  cases hops with
  | nil => exact absurd rfl h
  | cons => rfl

theorem mem_kept : hops∈t.kept s m ↔
    hops∈trails t.hopsAt s m ∧ Nat.max t.min 1 ≤ m ∧ t.keepsEnd (endOf s hops)=true := by
  simp [kept]

theorem expandRow_all (hnode : row.get hop.source=some (.node n)) (emitted : List NodeId)
    (htarget : boundTarget hop row = .ok (existing,matchesLabels)) :
    expandRow base hop min max false emitted row = .ok (emitted,
      if (rowTrails base hop min max row n existing matchesLabels).isEmpty&&hop.optional then [optionalNullRow hop row]
      else (rowTrails base hop min max row n existing matchesLabels).map
        (rowAfter (rowTraversal base hop min max row existing matchesLabels) n)) := by
  set t := rowTraversal base hop min max row existing matchesLabels with ht
  have hhits : t.traverse max 1 [] (if matchesLabels then [startAt hop row n] else [])
      (if zeroHop hop min n existing matchesLabels then [t.zeroRow n] else []) =
        (rowTrails base hop min max row n existing matchesLabels).map (rowAfter t n) := by
    have hzero : (if zeroHop hop min n existing matchesLabels then [t.zeroRow n] else []) =
        (if zeroHop hop min n existing matchesLabels then [[]] else []).map (rowAfter t n) := by
      split_ifs <;> rfl
    have hrows : ((range max).flatMap fun i => t.kept n.id (i+1)).map
        (fun hops => t.hitRow (t.after (startAt hop row n) hops)) =
          ((range max).flatMap fun i => t.kept n.id (i+1)).map (rowAfter t n) := by
      refine map_congr_left fun hops hmem => (rowAfter_ne_nil ?_).symm
      obtain ⟨i,-,hkept⟩ := mem_flatMap.mp hmem
      exact ne_nil_of_length_eq_add_one (mem_trails.mp (mem_kept.mp hkept).1).1
    rw [rowTrails,map_append,← hzero,← ht,← hrows]
    cases matchesLabels with
    | false =>
      have hnone : ((range max).flatMap fun i => t.kept n.id (i+1))=[] := by
        refine flatMap_eq_nil_iff.mpr fun i _ => filter_eq_nil_iff.mpr fun hops _ => ?_
        simp [keepsEnd,ht,rowTraversal]
      simp [Traversal.traverse_nil,hnone]
    | true =>
      have hall : t.traverse max (0+1) [] ((trails t.hopsAt n.id 0).map (t.after (startAt hop row n)))
          (if zeroHop hop min n existing true then [t.zeroRow n] else []) = _ :=
        Traversal.traverse_all rfl rfl (Nat.zero_add max) _
      simp only [Nat.add_comm 1] at hall
      exact hall
  rw [← isEmpty_map (f := rowAfter t n),← hhits]
  simp only [expandRow,expandRowBy,hnode,htarget,Bool.false_and,Bool.not_false,Bool.and_true]
  rfl

end

section

variable {graph : Graph} {edgeTypes : List String} {direction : RelationshipDirection} {k : EdgeKey} {u v : NodeId}

theorem nodup_neighboursOf (edgeType : String) (u : NodeId) : (neighboursOf graph edgeType direction u).Nodup := by
  cases direction with
  | right | left => exact graph.edges.keys_nodup.filter _
  | both =>
    refine .append (graph.edges.keys_nodup.filter _) ((graph.edges.keys_nodup.filter _).filter _) ?_
    intro k hout hin
    simp only [Graph.outEdges,Graph.inEdges,mem_filter,decide_eq_true_eq] at hout hin
    exact hin.2 (hout.2.2.trans hin.1.2.2.symm)

theorem nodup_neighboursOfAny (h : edgeTypes.Nodup) (u : NodeId) :
    (neighboursOfAny graph edgeTypes direction u).Nodup := by
  refine nodup_flatMap.mpr ⟨fun edgeType _ => nodup_neighboursOf edgeType u,h.imp fun {a b} hne => ?_⟩
  intro k ha hb
  obtain ⟨-,rfl,-⟩ := mem_neighboursOf.mp ⟨ha,rfl⟩
  obtain ⟨-,hb,-⟩ := mem_neighboursOf.mp ⟨hb,rfl⟩
  exact hne hb

theorem mem_exactEdgesBetween :
    k∈exactEdgesBetween direction u v edgeType ↔ k.edgeType=edgeType ∧ Joins direction k u v := by
  obtain ⟨type,src,dst⟩ := k
  cases direction with
  | right => simp [exactEdgesBetween,Joins]
  | left => simp [exactEdgesBetween,Joins,and_comm]
  | both =>
    by_cases huv : u=v
    · simp [exactEdgesBetween,Joins,huv,and_comm]
    · simp [exactEdgesBetween,Joins]
      tauto

theorem nodup_exactEdgesBetweenAny (h : edgeTypes.Nodup) (u v : NodeId) :
    (exactEdgesBetweenAny graph edgeTypes direction u v).Nodup := by
  refine (nodup_flatMap.mpr ⟨fun edgeType _ => ?_,h.imp fun {a b} hne => ?_⟩).filter _
  · cases direction with
    | right | left => exact nodup_singleton _
    | both =>
      by_cases huv : u=v <;> simp [exactEdgesBetween,huv]
  · intro k ha hb
    exact hne ((mem_exactEdgesBetween.mp ha).1.symm.trans (mem_exactEdgesBetween.mp hb).1)

theorem mem_exactEdgesBetweenAny :
    k∈exactEdgesBetweenAny graph edgeTypes direction u v ↔ LeadsTo graph edgeTypes direction u k v := by
  simp only [exactEdgesBetweenAny,mem_filter,mem_flatMap,mem_exactEdgesBetween,contains_iff_mem,
    LeadsTo,← AList.mem_keys]
  constructor
  · rintro ⟨⟨_,htype,rfl,hj⟩,hk⟩
    exact ⟨hk,htype,hj⟩
  · rintro ⟨hk,htype,hj⟩
    exact ⟨⟨_,htype,rfl,hj⟩,hk⟩

end

section

variable {base : Base} {hop : Expand} {min max : Nat} {row : Row} {n : NodeValue} {existing : Option NodeId}
  {matchesLabels : Bool} {hops : List (EdgeKey × NodeId)} {u v : NodeId} {k : EdgeKey} {t : Traversal}

theorem hopBy_eq_some : t.hopBy u e=some (k,v) ↔
    e=k ∧ partnerId k t.hop.direction u=v ∧ k∉t.bound ∧ (t.reached v).isSome := by
  unfold hopBy
  by_cases hb : t.bound.contains e=true
  · rw [if_pos hb]
    constructor
    · exact nofun
    · rintro ⟨rfl,-,hk,-⟩
      exact absurd (contains_iff_mem.mp hb) hk
  · rw [if_neg hb]
    simp only [Option.map_eq_some_iff,Prod.mk.injEq]
    constructor
    · rintro ⟨r,hr,rfl,rfl⟩
      exact ⟨rfl,rfl,by simpa using hb,by simp [hr]⟩
    · rintro ⟨rfl,rfl,-,hr⟩
      obtain ⟨r,hr⟩ := Option.isSome_iff_exists.mp hr
      exact ⟨r,hr,rfl,rfl⟩

theorem nodup_hopsAt (h : ∀ types, t.hop.edgeType=some types → types.Nodup) : (t.hopsAt u).Nodup := by
  have hedges : (t.edgesOf u).Nodup := by
    unfold edgesOf
    split
    · cases t.existing with
      | none => exact nodup_nil
      | some v => exact nodup_exactEdgesBetweenAny (nodup_resolveEdgeTypes h) u v
    · exact nodup_neighboursOfAny (nodup_resolveEdgeTypes h) u
  refine hedges.filterMap fun e e' b hb hb' => ?_
  obtain ⟨rfl,-⟩ := hopBy_eq_some.mp hb
  obtain ⟨rfl,-⟩ := hopBy_eq_some.mp hb'
  rfl

theorem mem_hopsAt : (k,v)∈t.hopsAt u ↔
    LeadsTo t.base.graph (resolveEdgeTypes t.base t.hop.edgeType) t.hop.direction u k v ∧ k∉t.bound ∧
      (t.reached v).isSome ∧ (t.hop.backReference=true → t.max=1 → t.existing=some v) := by
  simp only [hopsAt,mem_filterMap,hopBy_eq_some,edgesOf]
  split
  · rename_i hexact
    simp only [Bool.and_eq_true,beq_iff_eq] at hexact
    cases hexisting : t.existing with
    | none => simp [hexact]
    | some target =>
      constructor
      · rintro ⟨_,hmem,rfl,hpartner,hb,hr⟩
        obtain ⟨hk,htype,hj⟩ := mem_exactEdgesBetweenAny.mp hmem
        obtain ⟨-,hpartner'⟩ := leadsTo_iff.mp ⟨hk,htype,hj⟩
        obtain rfl : target=v := hpartner'.symm.trans hpartner
        exact ⟨⟨hk,htype,hj⟩,hb,hr,fun _ _ => rfl⟩
      · rintro ⟨hlead,hb,hr,htarget⟩
        obtain rfl : target=v := Option.some.inj (htarget hexact.1 hexact.2)
        exact ⟨k,mem_exactEdgesBetweenAny.mpr hlead,rfl,(leadsTo_iff.mp hlead).2,hb,hr⟩
  · rename_i hexact
    constructor
    · rintro ⟨_,hmem,rfl,hpartner,hb,hr⟩
      refine ⟨leadsTo_iff.mpr ⟨hmem,hpartner⟩,hb,hr,fun hback hmax => ?_⟩
      exact absurd (by simp [hback,hmax]) hexact
    · rintro ⟨hlead,hb,hr,-⟩
      obtain ⟨hmem,hpartner⟩ := leadsTo_iff.mp hlead
      exact ⟨k,hmem,rfl,hpartner,hb,hr⟩

theorem mem_rowTrails : hops∈rowTrails base hop min max row n existing matchesLabels ↔
    hops=[] ∧ zeroHop hop min n existing matchesLabels=true ∨ hops≠[] ∧ min≤hops.length ∧ hops.length ≤ max ∧
      hops∈trails (rowTraversal base hop min max row existing matchesLabels).hopsAt n.id hops.length ∧
      (rowTraversal base hop min max row existing matchesLabels).keepsEnd (endOf n.id hops)=true := by
  rw [rowTrails,mem_append]
  refine or_congr ?_ ?_
  · by_cases hzero : zeroHop hop min n existing matchesLabels=true <;> simp [hzero]
  · simp only [mem_flatMap,mem_range,mem_kept]
    constructor
    · rintro ⟨i,hi,hmem,hmin,hkeep⟩
      have hlen : hops.length=i+1 := (mem_trails.mp hmem).1
      have hmin : min ≤ i+1 := (Nat.le_max_left min 1).trans hmin
      exact ⟨ne_nil_of_length_eq_add_one hlen,hlen ▸ hmin,hlen ▸ hi,hlen ▸ hmem,hkeep⟩
    · rintro ⟨hne,hmin,hmax,hmem,hkeep⟩
      have hpos : 0<hops.length := length_pos_iff.mpr hne
      have hlen : hops.length-1+1=hops.length := by omega
      refine ⟨hops.length-1,by omega,hlen ▸ hmem,?_,hkeep⟩
      rw [hlen]
      exact Nat.max_le.mpr ⟨hmin,hpos⟩

theorem nodup_rowTrails (h : ∀ types, hop.edgeType=some types → types.Nodup) :
    (rowTrails base hop min max row n existing matchesLabels).Nodup := by
  have hlength : ∀ {i : Nat} {hops : List (EdgeKey × NodeId)},
      hops∈(rowTraversal base hop min max row existing matchesLabels).kept n.id i → hops.length=i :=
    fun hmem => (mem_trails.mp (mem_kept.mp hmem).1).1
  refine .append ?_ (nodup_flatMap.mpr ⟨fun i _ => (nodup_trails fun u => nodup_hopsAt h).filter _,?_⟩) ?_
  · split_ifs
    · exact nodup_singleton _
    · exact nodup_nil
  · refine nodup_range.imp fun {i j} hne hops hi hj => ?_
    have := (hlength hi).symm.trans (hlength hj)
    omega
  · intro hops hzero hmem
    obtain ⟨i,-,hkept⟩ := mem_flatMap.mp hmem
    have hlen := hlength hkept
    split_ifs at hzero
    · rw [mem_singleton.mp hzero] at hlen
      cases hlen
    · cases hzero

end

section

variable (base : Base) (hop : Expand) (row : Row) (n : NodeValue)

/-- A relationship of the pattern that no earlier hop of the clause holds. Unless the end is bound already, it leads
to a node that exists. -/
def MayTake (u : NodeId) (k : EdgeKey) (v : NodeId) : Prop :=
  LeadsTo base.graph (resolveEdgeTypes base hop.edgeType) hop.direction u k v ∧ k∉heldBy hop row ∧
    (hop.backReference=false → (lookupNodeById base.graph v).isSome)

/-- The node that a trail ends at: the one that is bound already, the source, or a node of the graph. -/
def endNode (hops : List (EdgeKey × NodeId)) : Option NodeValue :=
  if hop.backReference then
    match row.get hop.targetAlias with
    | some (.node m) => if m.id=endOf n.id hops then some m else none
    | _ => none
  else if hops=[] then some n
  else lookupNodeById base.graph (endOf n.id hops)

/-- The trails of a pattern from a node: no relationship twice, of a length within the bounds, to a node with all
labels. -/
structure Matches (min max : Nat) (hops : List (EdgeKey × NodeId)) : Prop where
  route : Route (MayTake base hop row) n.id hops (endOf n.id hops)
  nodup : (hops.map Prod.fst).Nodup
  lower : min≤hops.length
  upper : hops.length ≤ max
  labels : ∃ view, endNode base hop row n hops=some view ∧ ∀ label ∈ hop.targetLabels, label∈view.labels
  seed : hops=[] → ∀ label ∈ hop.targetLabels, label∈n.labels

def wayNode (v : NodeId) : RuntimeValue :=
  match (if hop.backReference then row.get hop.targetAlias else none), lookupNodeById base.graph v with
  | some (.node m), view => if m.id=v then .node m else view.elim .null .node
  | _, view => view.elim .null .node

def bindEnd (hops : List (EdgeKey × NodeId)) (r : Row) : Row :=
  if hop.backReference then r
  else (endNode base hop row n hops).elim r fun view => r.set hop.targetAlias (.node view)

def trailPath (hops : List (EdgeKey × NodeId)) : List RuntimeValue :=
  .node n::hops.flatMap fun h => [.rel (relValue base.graph h.1),wayNode base hop row h.2]

/-- What a trail binds. A pattern with a length binds the list of its relationships, and the path of a trail
without a hop is not bound. -/
def trailRow (hops : List (EdgeKey × NodeId)) : Row :=
  let rels := hops.map fun h => RuntimeValue.rel (relValue base.graph h.1)
  let bound := match hop.length, hop.relAlias with
    | none, some name => bindEnd base hop row n hops (row.set name (rels.headD .null))
    | some _, some name => (bindEnd base hop row n hops row).set name (.list rels)
    | _, none => bindEnd base hop row n hops row
  match hop.pathBinding with
  | some name => if hops=[] then bound else bound.set name (.path (trailPath base hop row n hops))
  | none => bound

end

section

variable {base : Base} {hop : Expand} {min max : Nat} {row : Row} {n : NodeValue} {existing : Option NodeId}
  {matchesLabels : Bool} {hops : List (EdgeKey × NodeId)} {u v : NodeId} {k : EdgeKey}
variable {t : Traversal} {start : Step}

theorem any_reached (hback : t.hop.backReference=false) : (t.reached v).any Prod.snd=t.isResult v := by
  simp only [reached,hback,Bool.false_eq_true,if_false,isResult]
  cases lookupNodeById t.base.graph v with
  | none => rfl
  | some view =>
    cases hall : t.hop.targetLabels.all view.labels.contains with
    | true => simp [hall]
    | false =>
      dsimp only
      split <;> simp [hall]

theorem isSome_reached (hback : t.hop.backReference=false) (hfar : 1<t.max ∨ t.isResult v=true) :
    (t.reached v).isSome=(lookupNodeById t.base.graph v).isSome := by
  simp only [reached,hback,Bool.false_eq_true,if_false]
  simp only [isResult] at hfar
  cases hview : lookupNodeById t.base.graph v with
  | none => rfl
  | some view =>
    dsimp only
    split
    · rename_i hnone
      simp only [Bool.and_eq_true,Bool.not_eq_true',beq_iff_eq] at hnone
      rcases hfar with hfar | hfar
      · omega
      · simp [hview,hnone.1] at hfar
    · rfl

theorem reached_back (hback : t.hop.backReference=true) : t.reached v=some (none,true) :=
  if_pos hback

theorem exists_endNode {P : NodeValue → Prop} (hback : hop.backReference=true)
    (hm : row.get hop.targetAlias=some (.node m)) :
    (∃ view, endNode base hop row n hops=some view ∧ P view) ↔ m.id=endOf n.id hops ∧ P m := by
  simp [endNode,hback,hm]

section

variable (htarget : boundTarget hop row = .ok (existing,matchesLabels))

include htarget

theorem keepsEnd_iff (hne : hops≠[]) :
    (rowTraversal base hop min max row existing matchesLabels).keepsEnd (endOf n.id hops)=true ↔
      ∃ view, endNode base hop row n hops=some view ∧ ∀ label ∈ hop.targetLabels, label∈view.labels := by
  rcases boundTarget_cases htarget with ⟨hback,rfl,rfl⟩ | ⟨m,hback,hm,rfl,rfl⟩ | ⟨hback,hnull,rfl,rfl⟩
  · rw [keepsEnd,any_reached hback]
    simp [rowTraversal,isResult,endNode,hback,hne,Option.any_eq_true]
  · rw [keepsEnd,reached_back hback]
    simp [rowTraversal,exists_endNode hback hm,and_comm]
  · simp [keepsEnd,rowTraversal,hback,endNode,hnull]

theorem zeroHop_iff : zeroHop hop min n existing matchesLabels=true ↔ min=0 ∧
      (∃ view, endNode base hop row n []=some view ∧ ∀ label ∈ hop.targetLabels, label∈view.labels) ∧
      ∀ label ∈ hop.targetLabels, label∈n.labels := by
  simp only [zeroHop,Bool.and_eq_true,beq_iff_eq,all_eq_true]
  rcases boundTarget_cases htarget with ⟨hback,rfl,rfl⟩ | ⟨m,hback,hm,rfl,rfl⟩ | ⟨hback,hnull,rfl,rfl⟩
  · simp [endNode,hback]
  · simp only [exists_endNode hback hm,all_eq_true,contains_iff_mem,Option.all_some,decide_eq_true_eq]
    tauto
  · simp [endNode,hback,hnull]

theorem mem_hopsAt_iff (hfar : 1 < max ∨ (rowTraversal base hop min max row existing matchesLabels).keepsEnd v=true) :
    (k,v)∈(rowTraversal base hop min max row existing matchesLabels).hopsAt u ↔ MayTake base hop row u k v := by
  rw [mem_hopsAt]
  refine and_congr_right fun hlead => and_congr_right fun _ => ?_
  rcases boundTarget_cases htarget with ⟨hback,rfl,rfl⟩ | ⟨m,hback,hm,rfl,rfl⟩ | ⟨hback,hnull,rfl,rfl⟩
  · rw [isSome_reached hback (hfar.imp_right fun hkeep => ?_)]
    · simp [rowTraversal,hback]
    · rw [keepsEnd,any_reached hback] at hkeep
      simp only [Bool.and_eq_true] at hkeep
      exact hkeep.1.2
  all_goals
    rw [reached_back hback]
    refine iff_of_true ⟨rfl,fun _ hmax => ?_⟩ fun hnot => absurd hback (by simp [hnot])
    have hkeep := hfar.resolve_left (Nat.le_of_eq hmax).not_gt
    simp only [keepsEnd,rowTraversal,Bool.false_and,Bool.and_eq_true,Option.all_some,decide_eq_true_eq,
      Bool.false_eq_true] at hkeep
  exact congrArg some hkeep.2

theorem route_iff (hmax : hops.length ≤ max)
    (hkeep : (rowTraversal base hop min max row existing matchesLabels).keepsEnd (endOf u hops)=true) :
    Route (fun u k v => (k,v)∈(rowTraversal base hop min max row existing matchesLabels).hopsAt u) u hops
      (endOf u hops) ↔ Route (MayTake base hop row) u hops (endOf u hops) := by
  by_cases hfar : 1 < max
  · exact ⟨fun h => h.mono fun _ _ _ => (mem_hopsAt_iff htarget (.inl hfar)).mp,
      fun h => h.mono fun _ _ _ => (mem_hopsAt_iff htarget (.inl hfar)).mpr⟩
  · match hops, hmax with
    | [], _ => exact ⟨fun _ => .nil u,fun _ => .nil u⟩
    | [(k,v)], _ =>
      have hhop := mem_hopsAt_iff (u := u) (k := k) htarget (.inr hkeep)
      constructor
      · rintro (_ | ⟨he,-⟩)
        exact .cons (hhop.mp he) (.nil _)
      · rintro (_ | ⟨he,-⟩)
        exact .cons (hhop.mpr he) (.nil _)
    | _ :: _ :: _, hlen =>
      simp only [length_cons] at hlen
      omega

theorem mem_rowTrails_iff : hops∈rowTrails base hop min max row n existing matchesLabels ↔
    Matches base hop row n min max hops := by
  rw [mem_rowTrails]
  constructor
  · rintro (⟨rfl,hzero⟩ | ⟨hne,hmin,hmax,hmem,hkeep⟩)
    · obtain ⟨rfl,hlabels,hseed⟩ := (zeroHop_iff htarget).mp hzero
      exact ⟨.nil _,nodup_nil,Nat.le_refl 0,Nat.zero_le max,hlabels,fun _ => hseed⟩
    · obtain ⟨-,hroute,hnodup⟩ := mem_trails.mp hmem
      exact ⟨(route_iff htarget hmax hkeep).mp hroute,hnodup,hmin,hmax,(keepsEnd_iff htarget hne).mp hkeep,
        fun h => absurd h hne⟩
  · intro h
    by_cases hne : hops=[]
    · subst hne
      exact .inl ⟨rfl,(zeroHop_iff htarget).mpr ⟨Nat.le_zero.mp h.lower,h.labels,h.seed rfl⟩⟩
    · have hkeep : (rowTraversal base hop min max row existing matchesLabels).keepsEnd (endOf n.id hops)=true :=
        (keepsEnd_iff htarget hne).mpr h.labels
      exact .inr ⟨hne,h.lower,h.upper,
        mem_trails.mpr ⟨rfl,(route_iff htarget h.upper hkeep).mpr h.route,h.nodup⟩,hkeep⟩

end

theorem relValues_after : (t.after start hops).relValues=start.relValues ++
    if t.hop.length.isSome&&t.hop.relAlias.isSome then hops.map fun h => .rel (relValue t.base.graph h.1) else [] := by
  induction hops using reverseRecOn with
  | nil => simp
  | append_singleton hops h ih =>
    rw [after_concat]
    simp only [extend,ih]
    split_ifs <;> simp

theorem trail_after : (t.after start hops).trail=start.trail ++ if t.hop.pathBinding.isSome then hops.flatMap fun h =>
      [.rel (relValue t.base.graph h.1),t.trailNode h.2 ((t.reached h.2).bind Prod.fst)] else [] := by
  induction hops using reverseRecOn with
  | nil => simp
  | append_singleton hops h ih =>
    rw [after_concat]
    simp only [extend,ih]
    split_ifs <;> simp

theorem Row.set_set (row : Row) (name : String) (a b : RuntimeValue) : (row.set name a).set name b=row.set name b := by
  refine Row.ext_get fun x => ?_
  simp only [Row.get_set]
  split_ifs <;> rfl

theorem view_reached (h : (t.reached v).isSome) : t.hop.backReference=true ∧ (t.reached v).bind Prod.fst=none ∨
      t.hop.backReference=false ∧ ∃ view, lookupNodeById t.base.graph v=some view ∧
        (t.reached v).bind Prod.fst=some view := by
  cases hback : t.hop.backReference with
  | true => exact .inl ⟨rfl,by rw [reached_back hback]; rfl⟩
  | false =>
    refine .inr ⟨rfl,?_⟩
    simp only [reached,hback,Bool.false_eq_true,if_false] at h ⊢
    cases hview : lookupNodeById t.base.graph v with
    | none => simp [hview] at h
    | some view =>
      rw [hview] at h
      dsimp only at h ⊢
      split at h
      · cases h
      · rename_i hnone
        exact ⟨view,rfl,by rw [if_neg hnone]; rfl⟩

theorem row_after (hlist : t.hop.length.isSome ∨ t.hop.relAlias=none) (hne : hops≠[])
    (hviews : ∀ h ∈ hops, (t.reached h.2).isSome) : (t.after start hops).row=if t.hop.backReference then start.row
      else (lookupNodeById t.base.graph (endOf start.tail hops)).elim start.row fun view =>
        start.row.set t.hop.targetAlias (.node view) := by
  induction hops using reverseRecOn with
  | nil => exact absurd rfl hne
  | append_singleton hops h ih =>
    have hrow : ∀ step, (t.extend step h.1 h.2 ((t.reached h.2).bind Prod.fst)).row =
        ((t.reached h.2).bind Prod.fst).elim step.row fun view => step.row.set t.hop.targetAlias (.node view) := by
      rcases hlist with hlist | hlist
      · obtain ⟨l,hl⟩ := Option.isSome_iff_exists.mp hlist
        cases (t.reached h.2).bind Prod.fst <;> simp [extend,hl]
      · cases (t.reached h.2).bind Prod.fst <;> simp [extend,hlist]
    rw [after_concat,hrow,endOf_concat]
    by_cases hfirst : hops=[]
    · subst hfirst
      rcases view_reached (hviews h (by simp)) with ⟨hback,hview⟩ | ⟨hback,view,hlookup,hview⟩
      · simp [hback,hview]
      · simp [hback,hview,hlookup]
    · have ih := ih hfirst fun h hh => hviews h (mem_append_left _ hh)
      rcases view_reached (hviews h (by simp)) with ⟨hback,hview⟩ | ⟨hback,view,hlookup,hview⟩
      · simp [hback,hview,ih]
      · simp only [hback,hview,hlookup,ih,Option.elim_some]
        cases lookupNodeById t.base.graph (endOf start.tail hops) with
        | none => rfl
        | some other => exact Row.set_set _ _ _ _

theorem trailNode_eq (htarget : boundTarget hop row = .ok (existing,matchesLabels))
    (h : ((rowTraversal base hop min max row existing matchesLabels).reached v).isSome) :
    (rowTraversal base hop min max row existing matchesLabels).trailNode v
      (((rowTraversal base hop min max row existing matchesLabels).reached v).bind Prod.fst) =
        wayNode base hop row v := by
  rcases view_reached h with ⟨hback,hview⟩ | ⟨hback,view,hlookup,hview⟩
  · rw [hview]
    change hop.backReference=true at hback
    rcases boundTarget_cases htarget with ⟨hback',-⟩ | ⟨m,-,hm,rfl,rfl⟩ | ⟨-,hnull,rfl,rfl⟩
    · rw [hback] at hback'
      cases hback'
    · simp only [trailNode,rowTraversal,wayNode,hback,if_true,hm,Option.some.injEq,eq_comm (a := v)]
      split_ifs
      · rfl
      · cases lookupNodeById base.graph v <;> rfl
    · simp only [trailNode,rowTraversal,wayNode,hback,if_true,hnull]
      cases lookupNodeById base.graph v <;> rfl
  · rw [hview]
    change hop.backReference=false at hback
    change lookupNodeById base.graph v=some view at hlookup
    simp [trailNode,wayNode,hback,hlookup]

theorem rowAfter_eq (htarget : boundTarget hop row = .ok (existing,matchesLabels))
    (hsingle : hop.length=none → min=1 ∧ max=1)
    (hmem : hops∈rowTrails base hop min max row n existing matchesLabels) :
    rowAfter (rowTraversal base hop min max row existing matchesLabels) n hops=trailRow base hop row n hops := by
  rcases mem_rowTrails.mp hmem with ⟨rfl,hzero⟩ | ⟨hne,hmin,hmax,htrail,-⟩
  · -- A match without a hop needs the lower bound 0, so the pattern has a length.
    obtain ⟨l,hl⟩ : ∃ l, hop.length=some l := by
      refine Option.ne_none_iff_exists'.mp fun hnone => ?_
      simp only [zeroHop,Bool.and_eq_true,beq_iff_eq] at hzero
      have := (hsingle hnone).1
      omega
    have hend : bindEnd base hop row n [] row=if hop.backReference then row else row.set hop.targetAlias (.node n) := by
      by_cases hback : hop.backReference=true <;> simp [bindEnd,endNode,hback]
    simp only [rowAfter,Traversal.zeroRow,rowTraversal,trailRow,hl,hend,if_true]
    cases hop.relAlias <;> cases hop.pathBinding <;> rfl
  · rw [rowAfter_ne_nil hne]
    set t := rowTraversal base hop min max row existing matchesLabels with ht
    have hviews : ∀ h ∈ hops, (t.reached h.2).isSome := by
      intro h hh
      obtain ⟨u,hu⟩ := (mem_trails.mp htrail).2.1.exists_edge hh
      exact (mem_hopsAt.mp hu).2.2.1
    have hpath : hop.pathBinding.isSome → (t.after (startAt hop row n) hops).trail=trailPath base hop row n hops := by
      intro hsome
      have hstart : (startAt hop row n).trail=[.node n] := if_pos hsome
      rw [trail_after,hstart,show t.hop.pathBinding.isSome=true from hsome,if_pos rfl,singleton_append]
      exact congrArg (cons _) (flatMap_congr fun h hh => by rw [trailNode_eq htarget (hviews h hh)]; rfl)
    have hend : ∀ r : Row, bindEnd base hop row n hops r=if hop.backReference then r
        else (lookupNodeById base.graph (endOf n.id hops)).elim r fun view => r.set hop.targetAlias (.node view) := by
      by_cases hback : hop.backReference=true <;> simp [bindEnd,endNode,hback,hne]
    have hrels : hop.length.isSome → hop.relAlias.isSome → (t.after (startAt hop row n) hops).relValues =
        hops.map fun h => .rel (relValue base.graph h.1) := by
      intro hlength hrel
      rw [relValues_after,show t.hop.length.isSome=true from hlength,show t.hop.relAlias.isSome=true from hrel]
      rfl
    have hrow : hop.length.isSome ∨ hop.relAlias=none →
        (t.after (startAt hop row n) hops).row=bindEnd base hop row n hops row :=
      fun hlist => (row_after hlist hne hviews).trans (hend row).symm
    have hhop : t.hop=hop := rfl
    have hone : hop.length=none → ∀ name, hop.relAlias=some name → (t.after (startAt hop row n) hops).row =
        bindEnd base hop row n hops (row.set name
          ((hops.map fun h => RuntimeValue.rel (relValue base.graph h.1)).headD .null)) := by
      intro hlength name hrel
      -- Without a length the pattern has one hop.
      obtain ⟨h,rfl⟩ : ∃ h, hops=[h] := by
        have hmax' := (hsingle hlength).2
        exact length_eq_one_iff.mp (by have := length_pos_iff.mpr hne; omega)
      have hhop' := hviews h (.head _)
      rw [hend,← nil_append [h],after_concat,Traversal.after_nil]
      rcases view_reached hhop' with ⟨hback,hview⟩ | ⟨hback,view,hlookup,hview⟩
      · simp only [hhop] at hback
        simp [extend,hview,hhop,hlength,hrel,hback]
        rfl
      · simp only [hhop] at hback
        have hlookup : lookupNodeById base.graph h.2=some view := hlookup
        simp [extend,hview,hhop,hlength,hrel,hback,hlookup,endOf]
        rfl
    change t.hitRow (t.after (startAt hop row n) hops) = _
    unfold Traversal.hitRow trailRow
    cases hlength : hop.length <;> cases hrel : hop.relAlias <;> cases hpb : hop.pathBinding <;> simp_all

end

section

variable {params : Params} {base : Base} {hop : Expand} {row : Row} {n : NodeValue}

def oneHop (base : Base) (hop : Expand) (row : Row) (u : NodeId) : List (EdgeKey × NodeId) :=
  (hopEdges base hop (heldBy hop row) u).filter fun h =>
    (lookupNodeById base.graph h.2).any fun view => hop.targetLabels.all view.labels.contains

theorem hopsAt_one (hback : hop.backReference=false) (u : NodeId) :
    (rowTraversal base hop 1 1 row none true).hopsAt u=oneHop base hop row u := by
  rw [hopsAt,oneHop,hopEdges,filter_filterMap]
  have hedges : (rowTraversal base hop 1 1 row none true).edgesOf u =
      neighboursOfAny base.graph (resolveEdgeTypes base hop.edgeType) hop.direction u := by
    simp [edgesOf,rowTraversal,hback]
  rw [hedges]
  refine filterMap_congr fun e _ => ?_
  simp only [hopBy,reached,rowTraversal,hback]
  by_cases hb : (heldBy hop row).contains e=true
  · rw [if_pos hb,if_pos hb]
    rfl
  · rw [if_neg hb,if_neg hb]
    cases hview : lookupNodeById base.graph (partnerId e hop.direction u) with
    | none => rfl
    | some view =>
      cases hall : hop.targetLabels.all view.labels.contains <;> simp [Option.filter,hview,hall]

theorem rowTrails_one (hback : hop.backReference=false) :
    rowTrails base hop 1 1 row n none true=(oneHop base hop row n.id).map fun h => [h] := by
  have hkeeps : ∀ h ∈ oneHop base hop row n.id, (rowTraversal base hop 1 1 row none true).keepsEnd h.2=true := by
    intro h hh
    rw [keepsEnd,any_reached hback]
    simpa [rowTraversal,isResult] using (mem_filter.mp hh).2
  have hlevel : trails (rowTraversal base hop 1 1 row none true).hopsAt n.id 1 =
      (oneHop base hop row n.id).map fun h => [h] := by
    simp [trails,longer,hopsAt_one hback]
  have hkept : (rowTraversal base hop 1 1 row none true).kept n.id 1=(oneHop base hop row n.id).map fun h => [h] := by
    rw [kept,hlevel]
    refine filter_eq_self.mpr fun hops hmem => ?_
    obtain ⟨h,hh,rfl⟩ := mem_map.mp hmem
    rw [Bool.and_eq_true]
    exact ⟨rfl,hkeeps h hh⟩
  rw [rowTrails,show zeroHop hop 1 n none true=false from rfl,range_one]
  simpa using hkept

theorem expandRows_single (hplain : hop.shortest = .none) (hlength : hop.length=none)
    (hback : hop.backReference=false) (hoptional : hop.optional=false) {items : List α} {row : α → Row}
    {node : α → NodeValue} (hnodes : ∀ a ∈ items, (row a).get hop.source=some (.node (node a))) :
    expandRows params base hop none (items.map row) = .ok (items.flatMap fun a =>
      (oneHop base hop (row a) (node a).id).map fun h => trailRow base hop (row a) (node a) [h]) := by
  have htarget : ∀ row, boundTarget hop row = .ok (none,true) := fun row => by rw [boundTarget,hback]; rfl
  have hrow : ∀ a ∈ items, ∀ emitted, expandRow base hop 1 1 false emitted (row a) = .ok (emitted,
      (oneHop base hop (row a) (node a).id).map fun h => trailRow base hop (row a) (node a) [h]) := by
    intro a ha emitted
    rw [expandRow_all (hnodes a ha) emitted (htarget _),
      map_congr_left fun hops hmem => rowAfter_eq (htarget _) (fun _ => ⟨rfl,rfl⟩) hmem,rowTrails_one hback,
      hoptional,map_map]
    simp
  have hbounds : resolveLength params hop.length = .ok none := by rw [hlength]; rfl
  rw [expandRows_plain hplain hbounds]
  clear hnodes
  induction items with
  | nil => rfl
  | cons a items ih =>
    rw [map_cons,gather,ih fun a h => hrow a (.tail _ h)]
    change (expandRow base hop 1 1 false [] (row a) >>= fun out => pure out.2) >>= _ = _
    rw [hrow a mem_cons_self]
    rfl

end

section

variable {params : Params} {bounds : Option (Nat × Nat)} {row : Row} {n : NodeValue} {hop : Expand}

theorem length_none_bounds (hbounds : resolveLength params hop.length = .ok bounds) (hnone : hop.length=none) :
    (bounds.getD (1,1)).1=1 ∧ clampHopMax (bounds.getD (1,1)).2=1 := by
  rw [hnone] at hbounds
  cases hbounds
  exact ⟨rfl,rfl⟩

theorem exists_boundTarget (htarget : hop.backReference=true →
      row.get hop.targetAlias=some .null ∨ ∃ m, row.get hop.targetAlias=some (.node m)) :
    ∃ existing matchesLabels, boundTarget hop row = .ok (existing,matchesLabels) := by
  unfold boundTarget
  cases hback : hop.backReference with
  | false => exact ⟨none,true,rfl⟩
  | true =>
    rcases htarget hback with hnull | ⟨m,hm⟩
    · rw [hnull]
      exact ⟨none,false,rfl⟩
    · rw [hm]
      exact ⟨some m.id,_,rfl⟩

/-- From a node the expand returns one row for each trail of the pattern, an open upper bound standing for 64 hops,
and an OPTIONAL one that finds none returns the row with nulls. -/
theorem expandRows_trails (base : Base) (hop : Expand) (hplain : hop.shortest = .none)
    (hbounds : resolveLength params hop.length = .ok bounds) (hnode : row.get hop.source = some (.node n))
    (htarget : hop.backReference = true →
      row.get hop.targetAlias = some .null ∨ ∃ m, row.get hop.targetAlias = some (.node m))
    (htypes : ∀ types, hop.edgeType = some types → types.Nodup) :
    ∃ found : List (List (EdgeKey × NodeId)), found.Nodup ∧
      (∀ hops, hops ∈ found ↔
        Matches base hop row n (bounds.getD (1, 1)).1 (clampHopMax (bounds.getD (1, 1)).2) hops) ∧
      expandRows params base hop none [row] = .ok (if found = [] ∧ hop.optional = true then [optionalNullRow hop row]
        else found.map (trailRow base hop row n)) := by
  obtain ⟨existing,matchesLabels,htarget⟩ := exists_boundTarget htarget
  have hsingle : hop.length=none → _ := length_none_bounds hbounds
  have hresolved : expandRows params base hop none [row] = _ := expandRows_plain hplain hbounds [row]
  generalize (bounds.getD (1,1)).1=min at hsingle hresolved ⊢
  generalize clampHopMax (bounds.getD (1,1)).2=max at hsingle hresolved ⊢
  refine ⟨rowTrails base hop min max row n existing matchesLabels,nodup_rowTrails htypes,
    fun hops => mem_rowTrails_iff htarget,?_⟩
  have hone : expandRow base hop min max false [] row = _ := expandRow_all hnode [] htarget
  rw [map_congr_left fun hops hmem => rowAfter_eq htarget hsingle hmem] at hone
  rw [hresolved,gather,expandOne,hone]
  simp only [Bool.and_eq_true,List.isEmpty_iff]
  exact congrArg Except.ok (List.append_nil _)

/-- `1 → 2 → 3`, of which the node in the middle is missing. -/
def gapped : Base where
  graph :=
    { nodes := ((∅ : Overlay).insert 1 ⟨[],∅⟩).insert 3 ⟨[],∅⟩
      edges := ((∅ : Edges).insert ⟨"R",1,2⟩ ∅).insert ⟨"R",2,3⟩ ∅ }
  edgeTypes := ["R"]
  typed := by decide
  distinct := List.nodup_singleton "R"

/-- The relationships lead from one node that exists to another, but the expand does not walk through one that
does not. -/
theorem expandRows_stops_at_gap :
    Route (LeadsTo gapped.graph ["R"] .right) 1 [(⟨"R", 1, 2⟩, 2), (⟨"R", 2, 3⟩, 3)] 3 ∧
    (lookupNodeById gapped.graph 3).isSome = true ∧
    expandRows (fun _ => none) gapped (upToThree .right) none [nodeAt "a" 1] = .ok [] := by
  refine ⟨.cons ⟨by decide,by decide,rfl,rfl⟩ (.cons ⟨by decide,by decide,rfl,rfl⟩ (.nil 3)),rfl,rfl⟩

theorem expandRows_circle : ∃ found : List (List (EdgeKey × NodeId)), found.Nodup ∧
    (∀ hops, hops ∈ found ↔ Matches circle (upToThree .right) (nodeAt "a" 1) ⟨1, [], ∅⟩ 1 3 hops) ∧
    expandRows (fun _ => none) circle (upToThree .right) none [nodeAt "a" 1] =
      .ok (if found = [] ∧ false = true then [optionalNullRow (upToThree .right) (nodeAt "a" 1)]
        else found.map (trailRow circle (upToThree .right) (nodeAt "a" 1) ⟨1, [], ∅⟩)) :=
  expandRows_trails circle (upToThree .right) rfl rfl rfl nofun (by rintro _ ⟨⟩; decide)

end
end NamiDB.Cypher
