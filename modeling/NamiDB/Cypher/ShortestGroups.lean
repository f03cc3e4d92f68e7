import Mathlib.Data.List.SplitBy
import NamiDB.Cypher.TrailRows
import NamiDB.Lib.Layers

/-! The search for the shortest paths of all rows that share their source. Each row gets its shortest paths, and the
search for all of them gives it the rows that it gets alone. -/
namespace NamiDB.Cypher
open Query Storage Lib List

namespace GroupedSearch

section

variable (s : GroupedSearch) (n : NodeValue)

def edgesFrom (u : NodeId) : List (EdgeKey × NodeId) :=
  (neighboursOfAny s.base.graph (resolveEdgeTypes s.base s.hop.edgeType) s.hop.direction u).map fun k =>
    (k,partnerId k s.hop.direction u)

/-- Beyond a single hop no edge is taken twice. -/
def allows (hops : List (EdgeKey × NodeId)) (h : EdgeKey × NodeId) : Bool :=
  !(decide (1<s.max)&&(hops.map Prod.fst).contains h.1)

def isFirst : Bool := s.hop.shortest == .first

def relsOf (hops : List (EdgeKey × NodeId)) : List RuntimeValue := hops.map fun h => .rel (relValue s.base.graph h.1)

def trailOf (hops : List (EdgeKey × NodeId)) : List RuntimeValue :=
  hops.flatMap fun h => [.rel (relValue s.base.graph h.1),((lookupNodeById s.base.graph h.2).map .node).getD .null]

def stateOf (hops : List (EdgeKey × NodeId)) : PathState where
  tail := endOf n.id hops
  trail := if s.hop.pathBinding.isSome then .node n::s.trailOf hops else []
  rels := if 1<s.max then hops.map Prod.fst else []
  relValues := if s.hop.relAlias.isSome then s.relsOf hops else []

def hitOf (hops : List (EdgeKey × NodeId)) : PathHit := ((s.stateOf n hops).trail,(s.stateOf n hops).relValues)

variable {s n} {hops : List (EdgeKey × NodeId)}

theorem extend_stateOf (h : EdgeKey × NodeId) : s.extend (s.stateOf n hops) h.1 h.2=s.stateOf n (hops++[h]) := by
  unfold extend stateOf
  rw [PathState.mk.injEq]
  refine ⟨(endOf_concat _ _ _).symm,?_,?_,?_⟩
  · split_ifs <;> simp [trailOf]
  · split_ifs <;> simp
  · split_ifs <;> simp [relsOf]

variable {depth : Nat} {visited targets : List NodeId} {old : Table NodeId PathHit}
  {grown : List (List (EdgeKey × NodeId))} {st : GroupedLevel} {v : NodeId}

def chosen (s : GroupedSearch) (n : NodeValue) (grown : List (List (EdgeKey × NodeId))) :
    List (List (EdgeKey × NodeId)) :=
  if s.isFirst then firsts (endOf n.id) [] grown else grown

/-- What a level has after it has looked at the walks `grown`. -/
structure Grown (s : GroupedSearch) (n : NodeValue) (targets : List NodeId) (old : Table NodeId PathHit)
    (grown : List (List (EdgeKey × NodeId))) (st : GroupedLevel) : Prop where
  next : st.next=(s.chosen n grown).map (s.stateOf n)
  seen : s.isFirst=true → ∀ t, t∈st.seen ↔ t∈grown.map (endOf n.id)
  remaining : ∀ t, t∈st.remaining ↔ t∈targets ∧ (s.isFirst=true → t∉grown.map (endOf n.id))
  found : ∀ t, t∈st.found ↔ t∈targets ∧ t∈grown.map (endOf n.id)
  hits : ∀ t, st.hits.find t=old.find t ++
    if t∈targets then ((s.chosen n grown).filter fun hops => endOf n.id hops=t).map (s.hitOf n) else []

theorem mem_ends_chosen : t∈(s.chosen n grown).map (endOf n.id) ↔ t∈grown.map (endOf n.id) := by
  unfold chosen
  split
  · simp only [mem_map]
    constructor
    · rintro ⟨hops,hmem,rfl⟩
      exact ⟨hops,(firsts_sublist [] grown).subset hmem,rfl⟩
    · rintro ⟨hops,hmem,rfl⟩
      exact exists_mem_firsts hmem not_mem_nil
  · rfl

theorem chosen_old (hfirst : s.isFirst=true) (h : endOf n.id hops∈grown.map (endOf n.id)) :
    s.chosen n (grown++[hops])=s.chosen n grown := by
  rw [chosen,chosen,if_pos hfirst,if_pos hfirst,firsts_append,firsts,if_pos (mem_append_left _ h),firsts,
    append_nil]

theorem chosen_new (h : s.isFirst=true → endOf n.id hops∉grown.map (endOf n.id)) :
    s.chosen n (grown++[hops])=s.chosen n grown++[hops] := by
  unfold chosen
  split
  · rename_i hfirst
    rw [firsts_append,firsts,if_neg (by simpa using h hfirst),firsts]
  · rfl

def arrive (s : GroupedSearch) (n : NodeValue) (st : GroupedLevel) (hops : List (EdgeKey × NodeId)) : GroupedLevel where
  remaining := if s.isFirst then st.remaining.filter (·≠endOf n.id hops) else st.remaining
  seen := if s.isFirst then endOf n.id hops::st.seen else st.seen
  atHop := st.atHop
  found := if endOf n.id hops∈st.remaining then endOf n.id hops::st.found else st.found
  next := st.next++[s.stateOf n hops]
  hits := if endOf n.id hops∈st.remaining then st.hits.push (endOf n.id hops) (s.hitOf n hops) else st.hits

theorem visitEdge_eq (hmin : s.min≤1) (hdepth : 1≤depth) (k : EdgeKey)
    (hv : partnerId k s.hop.direction (endOf n.id hops)=v) : s.visitEdge depth visited st (s.stateOf n hops,k) =
      if s.allows hops (k,v) && !visited.contains v && !(s.isFirst&&st.seen.contains v) then
        s.arrive n st (hops++[(k,v)]) else st := by
  have hused : (decide (1<s.max)&&(s.stateOf n hops).rels.contains k) = !s.allows hops (k,v) := by
    unfold allows stateOf
    by_cases hmax : 1<s.max <;> simp [hmax]
  have hlate : decide (2 ≤ s.min)=false := decide_eq_false (by omega)
  have hlong : decide (Nat.max s.min 1≤depth)=true := decide_eq_true (Nat.max_le.mpr ⟨hmin.trans hdepth,hdepth⟩)
  have hextend : s.extend (s.stateOf n hops) k v=s.stateOf n (hops++[(k,v)]) := extend_stateOf (k,v)
  have htail : (s.stateOf n hops).tail=endOf n.id hops := rfl
  have hfirst : (s.hop.shortest == .first)=s.isFirst := rfl
  unfold visitEdge
  simp only [htail,hv,hused,hlate,hlong,hfirst,hextend,hmin,decide_true,Bool.false_and,Bool.true_and,
    Bool.false_eq_true,if_false]
  cases s.allows hops (k,v) with
  | false => rfl
  | true =>
    cases visited.contains v with
    | true => rfl
    | false =>
      cases s.isFirst&&st.seen.contains v with
      | true => rfl
      | false =>
        simp only [Bool.not_true,Bool.not_false,Bool.or_self,Bool.and_self,Bool.false_eq_true,if_false,if_true,
          arrive,endOf_concat,contains_iff_mem]
        by_cases hmem : v∈st.remaining
        · rw [if_pos hmem,if_pos hmem,if_pos hmem]
          rfl
        · have hsame : (st.remaining.filter fun t => decide (t≠v))=st.remaining :=
            filter_eq_self.mpr fun t ht => decide_eq_true fun heq => hmem (heq ▸ ht)
          rw [if_neg hmem,if_neg hmem,if_neg hmem,hsame,ite_self]

theorem Grown.arrive (h : Grown s n targets old grown st)
    (hnew : s.isFirst=true → endOf n.id hops∉grown.map (endOf n.id)) :
    Grown s n targets old (grown++[hops]) (s.arrive n st hops) := by
  have hends : ∀ t, t∈(grown++[hops]).map (endOf n.id) ↔ t∈grown.map (endOf n.id) ∨ t=endOf n.id hops := by
    intro t
    rw [map_append,map_singleton,mem_append,mem_singleton]
  have hwanted : endOf n.id hops∈st.remaining ↔ endOf n.id hops∈targets := by
    rw [h.remaining]
    exact and_iff_left hnew
  refine ⟨?_,fun hfirst t => ?_,fun t => ?_,fun t => ?_,fun t => ?_⟩
  · rw [chosen_new hnew,map_append,← h.next]
    rfl
  · simp only [hends,← h.seen hfirst,GroupedSearch.arrive,if_pos hfirst,mem_cons,or_comm]
  · rw [hends]
    dsimp only [GroupedSearch.arrive]
    cases hfirst : s.isFirst with
    | false => simp [h.remaining,hfirst]
    | true =>
      rw [if_pos rfl,mem_filter,h.remaining,decide_eq_true_eq]
      simp only [hfirst,forall_const,not_or]
      exact and_assoc
  · rw [hends]
    dsimp only [GroupedSearch.arrive]
    by_cases hmem : endOf n.id hops∈targets
    · rw [if_pos (hwanted.mpr hmem),mem_cons,h.found]
      constructor
      · rintro (rfl | ⟨ht,hgrown⟩)
        · exact ⟨hmem,.inr rfl⟩
        · exact ⟨ht,.inl hgrown⟩
      · rintro ⟨ht,hgrown | rfl⟩
        · exact .inr ⟨ht,hgrown⟩
        · exact .inl rfl
    · rw [if_neg (hwanted.not.mpr hmem),h.found]
      refine and_congr_right fun ht => (or_iff_left ?_).symm
      rintro rfl
      exact hmem ht
  · rw [chosen_new hnew,filter_append,map_append]
    dsimp only [GroupedSearch.arrive]
    have hone : ([hops].filter fun hops => endOf n.id hops=t)=if endOf n.id hops=t then [hops] else [] := by
      by_cases hend : endOf n.id hops=t <;> simp [hend]
    rw [hone]
    rw [apply_ite (Table.find · t),Table.find_push,h.hits]
    simp only [hwanted]
    by_cases hend : endOf n.id hops=t
    · subst hend
      split <;> simp
    · simp [hend]

theorem Grown.visitEdge (hmin : s.min≤1) (hdepth : 1≤depth) (h : Grown s n targets old grown st) (k : EdgeKey)
    (hv : partnerId k s.hop.direction (endOf n.id hops)=v) :
    Grown s n targets old (grown++if s.allows hops (k,v) && !visited.contains v then [hops++[(k,v)]] else [])
      (s.visitEdge depth visited st (s.stateOf n hops,k)) := by
  rw [visitEdge_eq hmin hdepth k hv]
  cases s.allows hops (k,v) && !visited.contains v with
  | false => simpa using h
  | true =>
    have hend : endOf n.id (hops++[(k,v)])=v := endOf_concat _ _ _
    cases hseen : s.isFirst&&st.seen.contains v with
    | false =>
      refine h.arrive fun hfirst hmem => ?_
      rw [hfirst,Bool.true_and,contains_eq_mem,decide_eq_false_iff_not,h.seen hfirst] at hseen
      exact hseen (hend ▸ hmem)
    | true =>
      -- a walk to the node was found on this level before
      rw [Bool.and_eq_true,contains_iff_mem] at hseen
      obtain ⟨hfirst,hmem⟩ := hseen
      rw [h.seen hfirst,← hend] at hmem
      have hends : ∀ t, t∈(grown++[hops++[(k,v)]]).map (endOf n.id) ↔ t∈grown.map (endOf n.id) := by
        intro t
        rw [map_append,map_singleton,mem_append,mem_singleton]
        exact or_iff_left_of_imp fun ht => ht ▸ hmem
      rw [if_pos rfl]
      refine ⟨?_,fun _ t => ?_,fun t => ?_,fun t => ?_,fun t => ?_⟩ <;> simp only [chosen_old hfirst hmem,hends]
      exacts [h.next,h.seen hfirst t,h.remaining t,h.found t,h.hits t]

theorem grown_foldl (hmin : s.min≤1) (hdepth : 1≤depth) (visited : List NodeId)
    (pairs : List (List (EdgeKey × NodeId) × EdgeKey))
    (targets : List NodeId) (old : Table NodeId PathHit) : Grown s n targets old (pairs.flatMap fun p =>
        let h := (p.2,partnerId p.2 s.hop.direction (endOf n.id p.1))
        if s.allows p.1 h && !visited.contains h.2 then [p.1++[h]] else [])
      ((pairs.map fun p => (s.stateOf n p.1,p.2)).foldl (s.visitEdge depth visited) ⟨targets,[],[],[],[],old⟩) := by
  induction pairs using reverseRecOn with
  | nil =>
    refine ⟨?_,fun _ t => ?_,fun t => ?_,fun t => ?_,fun t => ?_⟩
    · unfold chosen
      split <;> rfl
    · simp
    · simp
    · simp
    · unfold chosen
      split <;> simp [firsts]
  | append_singleton pairs p ih =>
    rw [flatMap_append,map_append,foldl_append,flatMap_singleton]
    exact ih.visitEdge hmin hdepth p.2 rfl

theorem grown_visitLevel (hmin : s.min≤1) (hdepth : 1≤depth) (layer : List (List (EdgeKey × NodeId)))
    (targets : List NodeId) (old : Table NodeId PathHit) :
    Grown s n targets old (goOn s.edgesFrom s.allows n.id visited layer)
      (s.visitLevel depth visited (layer.map (s.stateOf n)) targets old) := by
  have hgrown := grown_foldl (n := n) hmin hdepth visited (layer.flatMap fun hops =>
    (neighboursOfAny s.base.graph (resolveEdgeTypes s.base s.hop.edgeType) s.hop.direction (endOf n.id hops)).map
      fun k => (hops,k)) targets old
  simp only [map_flatMap,flatMap_assoc,flatMap_map,map_map] at hgrown
  rw [goOn,visitLevel,flatMap_map]
  simp only [map_filter_eq_flatMap,edgesFrom,flatMap_map]
  exact hgrown

theorem chosen_goOn (layer : List (List (EdgeKey × NodeId))) :
    s.chosen n (goOn s.edgesFrom s.allows n.id visited layer) =
      nextLayer s.edgesFrom s.allows n.id s.isFirst visited layer := rfl

theorem find_levels (hmin : s.min≤1) (hdepth : 1≤depth) (m : Nat) (layer : List (List (EdgeKey × NodeId)))
    (targets : List NodeId) (old : Table NodeId PathHit) (t : NodeId) :
    (s.levels m depth visited (layer.map (s.stateOf n)) targets old).find t=old.find t ++
      if t∈targets then ((layersFrom s.edgesFrom s.allows n.id s.isFirst m visited layer).filter
        fun hops => endOf n.id hops=t).map (s.hitOf n) else [] := by
  induction m generalizing depth visited layer targets old with
  | zero => simp [levels,layersFrom]
  | succ m ih =>
    have hgrown : Grown s n targets old (goOn s.edgesFrom s.allows n.id visited layer)
        (s.visitLevel depth visited (layer.map (s.stateOf n)) targets old) :=
          grown_visitLevel hmin hdepth layer targets old
    simp only [levels]
    split
    · rename_i hstop
      rw [Bool.or_eq_true,List.isEmpty_iff,List.isEmpty_iff,List.map_eq_nil_iff] at hstop
      rcases hstop with rfl | rfl
      · simp
      · simp [layersFrom_nil]
    · have hleft : ∀ st : GroupedLevel, Grown s n targets old (goOn s.edgesFrom s.allows n.id visited layer) st →
          (t∈st.remaining.filter (fun t => !st.found.contains t) ↔
            t∈targets ∧ t∉(goOn s.edgesFrom s.allows n.id visited layer).map (endOf n.id)) := by
        intro st hst
        rw [mem_filter,hst.remaining,Bool.not_eq_true',contains_eq_mem,decide_eq_false_iff_not,hst.found]
        tauto
      have htails : ((s.chosen n (goOn s.edgesFrom s.allows n.id visited layer)).map (s.stateOf n)).map PathState.tail =
          (nextLayer s.edgesFrom s.allows n.id s.isFirst visited layer).map (endOf n.id) := by
        rw [map_map]
        rfl
      rw [hgrown.next,htails,ih (Nat.le_succ_of_le hdepth),hgrown.hits,layersFrom,chosen_goOn,filter_append,
        map_append,append_assoc,append_cancel_left_eq]
      by_cases ht : t∈targets
      · rw [if_pos ht,if_pos ht,append_cancel_left_eq]
        by_cases hend : t∈(goOn s.edgesFrom s.allows n.id visited layer).map (endOf n.id)
        · -- later layers do not come back to it
          rw [if_neg fun h => ((hleft _ hgrown).mp h).2 hend,eq_comm,List.map_eq_nil_iff,filter_eq_nil_iff]
          intro hops hmem heq
          refine endOf_layersFrom hmem (mem_append_left _ ?_)
          rw [of_decide_eq_true heq,← chosen_goOn,mem_ends_chosen]
          exact hend
        · rw [if_pos ((hleft _ hgrown).mpr ⟨ht,hend⟩)]
      · rw [if_neg ht,if_neg ht,if_neg fun h => ht ((hleft _ hgrown).mp h).1,append_nil]

end

section

variable {s : GroupedSearch} {n : NodeValue} {dstValue : NodeId → Option RuntimeValue} {targets : List NodeId}
  {t : NodeId}

def wanted (s : GroupedSearch) (n : NodeValue) (targets : List NodeId) : List NodeId :=
  (if s.min==0&&targets.contains n.id then targets.filter (·≠n.id) else targets).dedup

def pairTarget (s : GroupedSearch) (n : NodeValue) (targets : List NodeId) : Option NodeId :=
  match s.wanted n targets with
  | [target] => if s.isFirst&&s.min≤1&&1<s.max&&target≠n.id then some target else none
  | _ => none

def zeroHits (s : GroupedSearch) (n : NodeValue) (targets : List NodeId) : Table NodeId PathHit :=
  if s.min==0&&targets.contains n.id then Table.push [] n.id (s.hitOf n []) else []

theorem mem_wanted : t∈s.wanted n targets ↔ t∈targets ∧ ¬(s.min=0 ∧ t=n.id) := by
  rw [wanted,mem_dedup]
  split
  · rename_i hzero
    simp only [Bool.and_eq_true,beq_iff_eq] at hzero
    simp [hzero.1]
  · rename_i hzero
    simp only [Bool.and_eq_true,beq_iff_eq,contains_iff_mem,not_and] at hzero
    refine (and_iff_left_of_imp fun ht => ?_).symm
    rintro ⟨hmin,rfl⟩
    exact hzero hmin ht

theorem pairTarget_eq_some : s.pairTarget n targets=some t ↔ s.wanted n targets=[t] ∧ s.isFirst=true ∧
    s.min≤1 ∧ 1<s.max ∧ t≠n.id := by
  unfold pairTarget
  split
  · rename_i target hwanted
    rw [hwanted,cons.injEq]
    simp only [Bool.and_eq_true,decide_eq_true_eq,Option.ite_none_right_eq_some,Option.some_inj,and_true]
    constructor
    · rintro ⟨⟨⟨⟨hfirst,hmin⟩,hmax⟩,hne⟩,rfl⟩
      exact ⟨rfl,hfirst,hmin,hmax,hne⟩
    · rintro ⟨rfl,hfirst,hmin,hmax,hne⟩
      exact ⟨⟨⟨⟨hfirst,hmin⟩,hmax⟩,hne⟩,rfl⟩
  · rename_i hmany
    simp only [reduceCtorEq,false_iff]
    rintro ⟨hwanted,-⟩
    exact hmany t hwanted

theorem find_zeroHits (ht : t∈targets) :
    (s.zeroHits n targets).find t=if s.min=0 ∧ t=n.id then [s.hitOf n []] else [] := by
  unfold zeroHits
  split
  · rename_i hzero
    simp only [Bool.and_eq_true,beq_iff_eq] at hzero
    rw [Table.find_push]
    by_cases htn : t=n.id
    · simp [htn,hzero.1,Table.find]
    · simp [htn,Ne.symm htn,Table.find]
  · rename_i hzero
    simp only [Bool.and_eq_true,beq_iff_eq,contains_iff_mem,not_and] at hzero
    rw [if_neg]
    · rfl
    · rintro ⟨hmin,rfl⟩
      exact hzero hmin ht

theorem pathHits_eq : s.pathHits n dstValue targets = match s.pairTarget n targets with
    | some target =>
      match bidirectionalFirstPath s.base.graph (resolveEdgeTypes s.base s.hop.edgeType) s.hop.direction n.id target
          s.max with
      | some (nodes,edges) => let rels := edges.map fun edge => RuntimeValue.rel (relValue s.base.graph edge)
        (s.zeroHits n targets).push target (if s.hop.pathBinding.isSome then
          pairTrail s.base.graph n.id target (some (.node n)) (dstValue target) nodes rels else [],rels)
      | none => s.zeroHits n targets
    | none => s.levels s.max 1 (if s.min≤1 then [n.id] else []) [s.stateOf n []] (s.wanted n targets)
        (s.zeroHits n targets) := by
  have hstate : s.stateOf n []=⟨n.id,if s.hop.pathBinding.isSome then [.node n] else [],[],[]⟩ := by
    simp [stateOf,trailOf,relsOf]
  have hhit : s.hitOf n []=(if s.hop.pathBinding.isSome then [.node n] else [],[]) := by
    rw [hitOf,hstate]
  rw [zeroHits,hhit,hstate]
  rfl

theorem find_pathHits (hmin : s.min≤1) (ht : t∈targets)
    (hmany : s.isFirst=true → s.max≤1 ∨ t≠n.id ∧ ∃ u ∈ targets, u≠t ∧ ¬(s.min=0 ∧ u=n.id)) :
    (s.pathHits n dstValue targets).find t=(if s.min=0 ∧ t=n.id then [s.hitOf n []] else []) ++
      (routesTo s.edgesFrom s.allows n.id s.isFirst s.max t).map (s.hitOf n) := by
  have hpair : s.pairTarget n targets=none := by
    rw [Option.eq_none_iff_forall_ne_some]
    intro target htarget
    obtain ⟨hwanted,hfirst,-,hmax,-⟩ := pairTarget_eq_some.mp htarget
    rcases hmany hfirst with hle | ⟨htn,u,hu,hut,hun⟩
    · omega
    · have ht' : t∈s.wanted n targets := mem_wanted.mpr ⟨ht,fun h => htn h.2⟩
      have hu' : u∈s.wanted n targets := mem_wanted.mpr ⟨hu,hun⟩
      rw [hwanted,mem_singleton] at ht' hu'
      exact hut (hu'.trans ht'.symm)
  rw [pathHits_eq,hpair]
  rw [← map_singleton (f := s.stateOf n),find_levels hmin le_rfl,find_zeroHits ht,routesTo,
    append_cancel_left_eq]
  split
  · rfl
  · rename_i hout
    rw [mem_wanted,not_and,not_not] at hout
    obtain ⟨-,rfl⟩ := hout ht
    rw [eq_comm,List.map_eq_nil_iff,filter_eq_nil_iff]
    intro hops hmem heq
    exact endOf_layersFrom hmem (mem_singleton.mpr (of_decide_eq_true heq))

theorem find_pathHits_pair (hmin : s.min≤1) (ht : t∈targets) (hfirst : s.isFirst=true) (hmax : 1<s.max)
    (hne : t≠n.id) (hone : ∀ u ∈ targets, u=t ∨ s.min=0 ∧ u=n.id) :
    (s.pathHits n dstValue targets).find t=((bidirectionalFirstPath s.base.graph
        (resolveEdgeTypes s.base s.hop.edgeType) s.hop.direction n.id t s.max).map fun p =>
      let rels := p.2.map fun edge => RuntimeValue.rel (relValue s.base.graph edge)
      (if s.hop.pathBinding.isSome then
        pairTrail s.base.graph n.id t (some (.node n)) (dstValue t) p.1 rels else [],rels)).toList := by
  have hwanted : s.wanted n targets=[t] := by
    have hnodup : (s.wanted n targets).Nodup := nodup_dedup _
    have hmem : t∈s.wanted n targets := mem_wanted.mpr ⟨ht,fun h => hne h.2⟩
    by_contra hother
    rcases (hnodup.ne_singleton_iff t).mp hother with hnil | ⟨u,hu,hut⟩
    · rw [hnil] at hmem
      cases hmem
    · exact hut ((hone u (mem_wanted.mp hu).1).resolve_right (mem_wanted.mp hu).2)
  have hpair : s.pairTarget n targets=some t := pairTarget_eq_some.mpr ⟨hwanted,hfirst,hmin,hmax,hne⟩
  have hzero : (s.zeroHits n targets).find t=[] := by
    rw [find_zeroHits ht,if_neg fun h => hne h.2]
  rw [pathHits_eq,hpair]
  dsimp only
  cases bidirectionalFirstPath s.base.graph (resolveEdgeTypes s.base s.hop.edgeType) s.hop.direction n.id t s.max with
  | none => exact hzero
  | some p =>
    rw [Table.find_push,if_pos rfl,hzero]
    rfl

theorem mem_edgesFrom (u : NodeId) (k : EdgeKey) (v : NodeId) : (k,v)∈s.edgesFrom u ↔
    LeadsTo s.base.graph (resolveEdgeTypes s.base s.hop.edgeType) s.hop.direction u k v := by
  rw [leadsTo_iff,edgesFrom,mem_map]
  constructor
  · rintro ⟨k',hk,heq⟩
    cases heq
    exact ⟨hk,rfl⟩
  · rintro ⟨hk,rfl⟩
    exact ⟨k,hk,rfl⟩

theorem nodup_edgesFrom (h : ∀ types, s.hop.edgeType=some types → types.Nodup) (u : NodeId) : (s.edgesFrom u).Nodup :=
  (nodup_neighboursOfAny (nodup_resolveEdgeTypes h) u).map fun _ _ heq => (Prod.mk.inj heq).1

theorem allows_of_shortest (hops : List (EdgeKey × NodeId)) (h : EdgeKey × NodeId)
    (hs : Shortest (LeadsTo s.base.graph (resolveEdgeTypes s.base s.hop.edgeType) s.hop.direction) src (hops++[h])
      h.2) :
    s.allows hops h=true := by
  have hnodup := hs.nodup fun _ _ _ _ _ he he' => leadsTo_ends he he'
  rw [map_append,map_singleton,← concat_eq_append,nodup_concat] at hnodup
  simp [allows,hnodup.1]

end

end GroupedSearch

open GroupedSearch (isFirst pathHits stateOf hitOf find_pathHits)

section

/-- What stands for a node on a path: its value in the graph, or the one that a row of the group has bound. -/
def IsNodeValue (graph : Graph) (hop : Expand) (group : List Row) (id : NodeId) (v : RuntimeValue) : Prop :=
  v=((lookupNodeById graph id).map .node).getD .null ∨ ∃ n : NodeValue, n.id=id ∧ v = .node n ∧
    ∃ row ∈ group, row.get hop.source=some v ∨ row.get hop.targetAlias=some v

def ShowsPath (base : Base) (hop : Expand) (group : List Row) (row : Row) (src : NodeId)
    (hops : List (EdgeKey × NodeId)) (out : Row) : Prop :=
  ∃ start values, IsNodeValue base.graph hop group src start ∧
    Forall₂ (fun h v => IsNodeValue base.graph hop group h.2 v) hops values ∧
    out=pathRow hop row
      (start::(hops.zip values).flatMap fun e => [RuntimeValue.rel (relValue base.graph e.1.1),e.2],
        hops.map fun h => .rel (relValue base.graph h.1))

/-- The routes that a row asks for: one shortest route, or all of them. -/
structure ShortestAnswer (base : Base) (hop : Expand) (max : Nat) (src dst : NodeId)
    (routes : List (List (EdgeKey × NodeId))) : Prop where
  shortest : ∀ hops ∈ routes,
    Shortest (LeadsTo base.graph (resolveEdgeTypes base hop.edgeType) hop.direction) src hops dst ∧ hops.length ≤ max
  found : ∀ hops, Route (LeadsTo base.graph (resolveEdgeTypes base hop.edgeType) hop.direction) src hops dst →
    hops.length ≤ max → routes≠[]
  first : hop.shortest = .first → routes.length≤1
  all : hop.shortest = .all → routes.Nodup ∧ ∀ hops,
    Shortest (LeadsTo base.graph (resolveEdgeTypes base hop.edgeType) hop.direction) src hops dst →
      hops.length ≤ max → hops∈routes

variable {s : GroupedSearch} {n : NodeValue} {dstValue : NodeId → Option RuntimeValue} {targets : List NodeId}
  {t : NodeId}
  {hops : List (EdgeKey × NodeId)} {row : Row} {hop : Expand} {group : List Row}

theorem pathRow_congr (htrail : hop.pathBinding.isSome=true → hit.1=hit'.1)
    (hrels : hop.relAlias.isSome=true → hit.2=hit'.2) : pathRow hop row hit=pathRow hop row hit' := by
  unfold pathRow
  cases hrel : hop.relAlias <;> cases hpath : hop.pathBinding <;> simp_all

theorem zip_map_self (f : α → β) (l : List α) : l.zip (l.map f)=l.map fun a => (a,f a) := by
  simpa using zip_map' (f := id) (g := f) (l := l)

theorem showsPath_values (value : NodeId → RuntimeValue) (hstart : IsNodeValue base.graph hop group src start)
    (hvalue : ∀ h ∈ hops, IsNodeValue base.graph hop group h.2 (value h.2))
    (htrail : hop.pathBinding.isSome=true →
      hit.1 = start::hops.flatMap fun h => [RuntimeValue.rel (relValue base.graph h.1),value h.2])
    (hrels : hop.relAlias.isSome=true → hit.2=hops.map fun h => .rel (relValue base.graph h.1)) :
    ShowsPath base hop group row src hops (pathRow hop row hit) := by
  refine ⟨start,hops.map fun h => value h.2,hstart,?_,pathRow_congr (fun hpath => ?_) hrels⟩
  · rw [forall₂_map_right_iff,forall₂_same]
    exact hvalue
  · rw [htrail hpath,zip_map_self,flatMap_map]

section

variable (hn : ∃ row ∈ group, row.get s.hop.source=some (.node n))

include hn

theorem isNodeValue_source : IsNodeValue s.base.graph s.hop group n.id (.node n) := by
  obtain ⟨row,hrow,hn⟩ := hn
  exact .inr ⟨n,rfl,rfl,row,hrow,.inl hn⟩

theorem showsPath_hitOf (hops : List (EdgeKey × NodeId)) :
    ShowsPath s.base s.hop group row n.id hops (pathRow s.hop row (s.hitOf n hops)) := by
  refine showsPath_values (fun id => ((lookupNodeById s.base.graph id).map .node).getD .null) (isNodeValue_source hn)
    (fun h _ => .inl rfl) (fun hpath => ?_) fun hrel => ?_
  · rw [hitOf,stateOf,if_pos hpath]
    rfl
  · rw [hitOf,stateOf,if_pos hrel]
    rfl

theorem showsPath_pair (hm : m.id=t) (htarget : ∃ row ∈ group, row.get s.hop.targetAlias=some (.node m)) :
    ShowsPath s.base s.hop group row n.id hops (pathRow s.hop row (if s.hop.pathBinding.isSome then
      pairTrail s.base.graph n.id t (some (.node n)) (some (.node m)) (n.id::hops.map Prod.snd) (s.relsOf hops)
        else [],s.relsOf hops)) := by
  let value : NodeId → RuntimeValue := fun id => ((if id=n.id then some (.node n)
    else if id=t then some (.node m) else (lookupNodeById s.base.graph id).map .node) : Option RuntimeValue).getD .null
  have hvalue : ∀ id, IsNodeValue s.base.graph s.hop group id (value id) := by
    intro id
    dsimp only [value]
    split
    · rename_i hid
      rw [hid]
      exact isNodeValue_source hn
    · split
      · rename_i hid
        obtain ⟨row,hrow,htarget⟩ := htarget
        exact .inr ⟨m,hm.trans hid.symm,rfl,row,hrow,.inr htarget⟩
      · exact .inl rfl
  refine showsPath_values value (hvalue n.id) (fun h _ => hvalue h.2) (fun hpath => ?_) fun _ => rfl
  rw [if_pos hpath]
  change value n.id::((s.relsOf hops).zip (hops.map Prod.snd)).flatMap (fun e => [e.1,value e.2]) = _
  rw [GroupedSearch.relsOf,zip_map',flatMap_map]

variable (hmin : s.min≤1) (htypes : ∀ types, s.hop.edgeType=some types → types.Nodup)
  (hdst : ∀ u ∈ targets, ∃ m : NodeValue, m.id=u ∧ dstValue u=some (.node m) ∧
    ∃ row ∈ group, row.get s.hop.targetAlias=some (.node m))

include hmin htypes hdst

theorem exists_shortestAnswer (ht : t∈targets) (hne : t≠n.id) :
    ∃ routes, ShortestAnswer s.base s.hop s.max n.id t routes ∧
      Forall₂ (fun hops hit => ∀ row, ShowsPath s.base s.hop group row n.id hops (pathRow s.hop row hit)) routes
        ((s.pathHits n dstValue targets).find t) := by
  by_cases hpair : s.isFirst=true ∧ 1<s.max ∧ ∀ u ∈ targets, u=t ∨ s.min=0 ∧ u=n.id
  · obtain ⟨hfirst,hmax,hone⟩ := hpair
    obtain ⟨m,hm,hvalue,htarget⟩ := hdst t ht
    have hnotAll : s.hop.shortest ≠ .all := by
      intro hall
      rw [isFirst,hall] at hfirst
      cases hfirst
    rw [GroupedSearch.find_pathHits_pair hmin ht hfirst hmax hne hone,hvalue]
    rcases bidirectionalFirstPath_cases s.base.graph (resolveEdgeTypes s.base s.hop.edgeType) s.hop.direction
      (.symm hne) s.max with ⟨hnone,hfar⟩ | ⟨hops,hshortest,hlen,hsome⟩
    · rw [hnone]
      refine ⟨[],⟨nofun,fun hops hroute hle => ?_,fun _ => Nat.zero_le 1,fun hall => absurd hall hnotAll⟩,.nil⟩
      have := hfar hops hroute
      omega
    · rw [hsome]
      refine ⟨[hops],⟨?_,fun _ _ _ => cons_ne_nil _ _,fun _ => le_rfl,fun hall => absurd hall hnotAll⟩,?_⟩
      · intro hops' hmem
        rw [mem_singleton.mp hmem]
        exact ⟨hshortest,hlen⟩
      · refine .cons (fun row => ?_) .nil
        dsimp only
        rw [map_map]
        exact showsPath_pair hn hm htarget
  · have hmany : s.isFirst=true → s.max≤1 ∨ t≠n.id ∧ ∃ u ∈ targets, u≠t ∧ ¬(s.min=0 ∧ u=n.id) := by
      intro hfirst
      by_cases hmax : 1<s.max
      · simp only [hfirst,hmax,true_and,not_forall,not_or] at hpair
        obtain ⟨u,hu,hut,hun⟩ := hpair
        exact .inr ⟨hne,u,hu,hut,hun⟩
      · exact .inl (Nat.le_of_not_lt hmax)
    rw [find_pathHits hmin ht hmany,if_neg fun h => hne h.2,nil_append]
    refine ⟨routesTo s.edgesFrom s.allows n.id s.isFirst s.max t,⟨fun hops hmem => ?_,fun hops hroute hle => ?_,
      fun hfirst => ?_,fun hall => ?_⟩,?_⟩
    · exact shortest_of_mem_routesTo s.mem_edgesFrom s.allows_of_shortest hmem
    · obtain ⟨hops',hs,hle'⟩ := hroute.exists_shortest
      obtain ⟨hops'',hmem,-⟩ := exists_mem_routesTo s.mem_edgesFrom s.allows_of_shortest (.symm hne) hs
        (hle'.trans hle)
      exact ne_nil_of_mem hmem
    · have hfirst' : s.isFirst=true := beq_iff_eq.mpr hfirst
      rw [hfirst']
      by_contra hlong
      obtain ⟨hops,hmem⟩ := exists_mem_of_ne_nil _ (length_pos_iff.mp (Nat.zero_lt_of_lt (Nat.lt_of_not_le hlong)))
      obtain ⟨hs,hle⟩ := shortest_of_mem_routesTo s.mem_edgesFrom s.allows_of_shortest hmem
      obtain ⟨hops',heq,-⟩ := routesTo_first s.mem_edgesFrom s.allows_of_shortest (.symm hne) hs hle
      rw [heq] at hlong
      exact hlong le_rfl
    · have hall' : s.isFirst=false := by rw [isFirst,hall]; rfl
      rw [hall']
      refine ⟨(nodup_layersFrom (s.nodup_edgesFrom htypes) (nodup_singleton _)).filter _,fun hops hs hle => ?_⟩
      exact (mem_routesTo_all s.mem_edgesFrom s.allows_of_shortest (.symm hne)).mpr ⟨hs,hle⟩
    · rw [forall₂_map_right_iff,forall₂_same]
      exact fun hops _ row => showsPath_hitOf hn hops

end
end

section

variable {base : Base} {hop : Expand} {min max : Nat} {row : Row} {run rows group : List Row} {n m : NodeValue}
  {hits : Table NodeId PathHit} {t : NodeId}

def targetOf (hop : Expand) (row : Row) : Option NodeId :=
  match row.get hop.targetAlias with
  | some (.node m) => if hop.targetLabels.all m.labels.contains then some m.id else none
  | _ => none

def noPathRows (hop : Expand) (row : Row) : List Row := if hop.optional then [optionalNullRow hop row] else []

/-- The rows of one row: a row for each route it asks for, or what stands for no path. -/
def ShortestRows (base : Base) (hop : Expand) (max : Nat) (group : List Row) (row : Row) (src : NodeId) (m : NodeValue)
    (out : List Row) : Prop :=
  ∃ routes, (if hop.targetLabels.all m.labels.contains then ShortestAnswer base hop max src m.id routes
      else routes=[]) ∧
    if routes=[] then out=noPathRows hop row else Forall₂ (ShowsPath base hop group row src) routes out

def BindsEnds (hop : Expand) (row : Row) : Prop :=
  ∃ n m, row.get hop.source=some (.node n) ∧ row.get hop.targetAlias=some (.node m)

theorem rowTarget_eq (hback : hop.backReference=true) (hrow : BindsEnds hop row) :
    rowTarget hop row = .ok (targetOf hop row) := by
  obtain ⟨n,m,-,hm⟩ := hrow
  rw [rowTarget,boundTarget,if_pos hback,targetOf,hm]
  rfl

theorem expandShortestRun_eq (hback : hop.backReference=true) (hn : row.get hop.source=some (.node n))
    (hrows : ∀ row' ∈ row :: run, BindsEnds hop row') :
    expandShortestRun base hop min max (row::run) = .ok ((row::run).flatMap fun row' =>
      pathRows hop (pathHits ⟨base,hop,min,max⟩ n
        (fun id => (row::run).findSome? (boundNode hop.targetAlias id)) ((row::run).filterMap (targetOf hop)))
          row' (targetOf hop row')) := by
  have htargets : gather (fun row => do
      let target ← rowTarget hop row
      pure [target]) (row::run) = .ok ((row::run).map (targetOf hop)) := by
    rw [gather_one_eq_ok,forall₂_map_right_iff,forall₂_same]
    exact fun row' hrow' => rowTarget_eq hback (hrows row' hrow')
  rw [expandShortestRun]
  simp only [hn]
  refine bind_eq_ok.mpr ⟨_,htargets,?_⟩
  rw [zip_map_self,flatMap_map,filterMap_map]
  rfl

theorem pathRows_nil (h : (target.map hits.find).getD []=[]) : pathRows hop hits row target=noPathRows hop row := by
  unfold pathRows noPathRows
  rw [h]
  cases hop.optional <;> rfl

theorem pathRows_ne_nil (h : hits.find t≠[]) :
    pathRows hop hits row (some t)=(hits.find t).map (pathRow hop row) := by
  unfold pathRows
  rw [if_neg]
  · rfl
  · simpa using fun hnil => absurd hnil h

theorem findSome_boundNode (ht : t∈run.filterMap (targetOf hop)) :
    ∃ m : NodeValue, m.id=t ∧ run.findSome? (boundNode hop.targetAlias t)=some (.node m) ∧
      ∃ row ∈ run, row.get hop.targetAlias=some (.node m) := by
  have hbound : ∀ row v, boundNode hop.targetAlias t row=some v →
      ∃ m : NodeValue, m.id=t ∧ v = .node m ∧ row.get hop.targetAlias=some (.node m) := by
    grind [boundNode]
  have hsome : (run.findSome? (boundNode hop.targetAlias t)).isSome=true := by
    rw [findSome?_isSome_iff]
    obtain ⟨row,hrow,htarget⟩ := mem_filterMap.mp ht
    grind [boundNode,targetOf]
  obtain ⟨v,hv⟩ := Option.isSome_iff_exists.mp hsome
  obtain ⟨row,hmem,hrow⟩ := exists_of_findSome?_eq_some hv
  obtain ⟨m,hm,rfl,htarget⟩ := hbound row v hrow
  exact ⟨m,hm,hv,row,hmem,htarget⟩

section

variable (hmin : min≤1) (htypes : ∀ types, hop.edgeType=some types → types.Nodup)

include hmin htypes

theorem shortestRows_of_mem (hgroup : run ⊆ group) (hn : ∃ row ∈ group, row.get hop.source=some (.node n))
    (hrow : row∈run) (hm : row.get hop.targetAlias=some (.node m)) (hne : n.id≠m.id) :
    ShortestRows base hop max group row n.id m (pathRows hop (pathHits ⟨base,hop,min,max⟩ n
        (fun id => run.findSome? (boundNode hop.targetAlias id)) (run.filterMap (targetOf hop))) row
          (targetOf hop row)) := by
  by_cases hlabels : hop.targetLabels.all m.labels.contains=true
  · have htarget : targetOf hop row=some m.id := by rw [targetOf,hm]; exact if_pos hlabels
    have hmem : m.id∈run.filterMap (targetOf hop) := mem_filterMap.mpr ⟨row,hrow,htarget⟩
    have htargets : ∀ u ∈ run.filterMap (targetOf hop), ∃ m : NodeValue, m.id=u ∧
        run.findSome? (boundNode hop.targetAlias u)=some (.node m) ∧
          ∃ row ∈ group, row.get hop.targetAlias=some (.node m) := by
      intro u hu
      obtain ⟨m,hid,hsome,row,hrow,hm⟩ := findSome_boundNode hu
      exact ⟨m,hid,hsome,row,hgroup hrow,hm⟩
    obtain ⟨routes,hroutes,hshows⟩ := exists_shortestAnswer (s := ⟨base,hop,min,max⟩) hn hmin htypes htargets hmem
      (.symm hne)
    refine ⟨routes,by rw [if_pos hlabels]; exact hroutes,?_⟩
    rw [htarget]
    split
    · rename_i hnil
      subst hnil
      exact pathRows_nil (forall₂_nil_left_iff.mp hshows)
    · rename_i hsome
      rw [pathRows_ne_nil fun hnil => hsome (forall₂_nil_right_iff.mp (hnil ▸ hshows)),forall₂_map_right_iff]
      exact hshows.imp fun _ _ h => h row
  · refine ⟨[],by rw [if_neg hlabels],?_⟩
    rw [targetOf,hm]
    dsimp only
    rw [if_neg hlabels]
    rfl

end

theorem source_of_isChain (hchain : (row::run).IsChain fun a b => sameSource hop.source a b=true)
    (hn : row.get hop.source=some (.node n)) :
    ∀ row' ∈ row :: run, ∃ n', row'.get hop.source=some (.node n') ∧ n'.id=n.id := by
  induction run generalizing row n with
  | nil =>
    intro row' hrow'
    rw [mem_singleton.mp hrow']
    exact ⟨n,hn,rfl⟩
  | cons next run ih =>
    obtain ⟨hsame,hchain⟩ := isChain_cons_cons.mp hchain
    have hnext : ∃ n', next.get hop.source=some (.node n') ∧ n'.id=n.id := by grind [sameSource]
    obtain ⟨n',hn',hid⟩ := hnext
    refine forall_mem_cons.mpr ⟨⟨n,hn,rfl⟩,fun row' hrow' => ?_⟩
    obtain ⟨n'',hn'',hid'⟩ := ih hchain hn' row' hrow'
    exact ⟨n'',hn'',hid'.trans hid⟩

theorem run_of_mem_splitBy (hrows : ∀ row ∈ rows, BindsEnds hop row)
    (hrun : run∈rows.splitBy (sameSource hop.source)) : ∃ row rest n, run=row::rest ∧
      row.get hop.source=some (.node n) ∧ (∀ row' ∈ run, row'∈rows ∧ BindsEnds hop row') ∧
      ∀ row' ∈ run, ∃ n', row'.get hop.source=some (.node n') ∧ n'.id=n.id := by
  have hmem : ∀ row' ∈ run, row'∈rows := by
    intro row' hrow'
    rw [← flatten_splitBy (sameSource hop.source) rows]
    exact mem_flatten.mpr ⟨run,hrun,hrow'⟩
  cases run with
  | nil => exact absurd hrun (nil_notMem_splitBy _ _)
  | cons row rest =>
    obtain ⟨n,-,hn,-⟩ := hrows row (hmem row (.head _))
    exact ⟨row,rest,n,rfl,hn,fun row' hrow' => ⟨hmem row' hrow',hrows row' (hmem row' hrow')⟩,
      source_of_isChain (isChain_of_mem_splitBy hrun) hn⟩

section

def rowsOf (hop : Expand) (row : Row) (found : List PathHit) : List Row :=
  if found.isEmpty&&hop.optional then [optionalNullRow hop row] else found.map (pathRow hop row)

def hitsTo (s : GroupedSearch) (n : NodeValue) : Option NodeId → List PathHit
  | some t => (if s.min=0 ∧ t=n.id then [s.hitOf n []] else []) ++
      (routesTo s.edgesFrom s.allows n.id s.isFirst s.max t).map (s.hitOf n)
  | none => []

def ownRows (s : GroupedSearch) (row : Row) : List Row :=
  match row.get s.hop.source with
  | some (.node n) => rowsOf s.hop row (hitsTo s n (targetOf s.hop row))
  | _ => []

variable (hmin : min≤1) (hback : hop.backReference=true) (hall : hop.shortest = .all)

include hmin hback hall

theorem expandShortestRun_all (hn : row.get hop.source=some (.node n))
    (hrows : ∀ row' ∈ row :: run, BindsEnds hop row') :
    expandShortestRun base hop min max (row::run) = .ok ((row::run).flatMap fun row' =>
      rowsOf hop row' (hitsTo ⟨base,hop,min,max⟩ n (targetOf hop row'))) := by
  have hnotFirst : isFirst ⟨base,hop,min,max⟩=false := by
    rw [isFirst,hall]
    rfl
  rw [expandShortestRun_eq hback hn hrows]
  refine congrArg Except.ok (flatMap_congr fun row' hrow' => ?_)
  cases htarget : targetOf hop row' with
  | none => rfl
  | some t =>
    have hmem : t∈(row::run).filterMap (targetOf hop) := mem_filterMap.mpr ⟨row',hrow',htarget⟩
    have hfind : (pathHits ⟨base,hop,min,max⟩ n
        (fun id => (row::run).findSome? (boundNode hop.targetAlias id)) ((row::run).filterMap (targetOf hop))).find t =
          hitsTo ⟨base,hop,min,max⟩ n (some t) :=
      find_pathHits hmin hmem fun hfirst => absurd hfirst (by rw [hnotFirst]; decide)
    rw [← hfind]
    rfl

theorem grouped_all (hrows : ∀ row ∈ rows, BindsEnds hop row)
    (hsame : ∀ row ∈ rows, ∀ row' ∈ rows, ∀ n n', row.get hop.source=some (.node n) →
      row'.get hop.source=some (.node n') → n.id=n'.id → n=n') :
    executeExpandShortestGrouped base hop min max rows = .ok (rows.flatMap (ownRows ⟨base,hop,min,max⟩)) := by
  have hrun : ∀ run ∈ rows.splitBy (sameSource hop.source),
      expandShortestRun base hop min max run = .ok (run.flatMap (ownRows ⟨base,hop,min,max⟩)) := by
    intro run hrun
    obtain ⟨row,rest,n,rfl,hn,hmem,hsource⟩ := run_of_mem_splitBy hrows hrun
    rw [expandShortestRun_all hmin hback hall hn fun row' hrow' => (hmem row' hrow').2]
    refine congrArg Except.ok (flatMap_congr fun row' hrow' => ?_)
    obtain ⟨n',hn',hid⟩ := hsource row' hrow'
    cases hsame row' (hmem row' hrow').1 row (hmem row (.head _)).1 n' n hn' hn hid
    rw [ownRows,hn']
  rw [executeExpandShortestGrouped,gather_of_ok hrun]
  conv_rhs => rw [← flatten_splitBy (sameSource hop.source) rows,flatten_eq_flatMap,flatMap_assoc]
  rfl

end

theorem exists_answers {f : List Row → Except EvalError (List Row)} (hflatten : groups.flatten=rows)
    (h : ∀ group ∈ groups, ∃ answers, f group = .ok answers.flatten ∧ Forall₂ P group answers) :
    ∃ answers, gather f groups = .ok answers.flatten ∧ Forall₂ P rows answers := by
  subst hflatten
  induction groups with
  | nil => exact ⟨[],rfl,.nil⟩
  | cons group groups ih =>
    obtain ⟨hgroup,hgroups⟩ := forall_mem_cons.mp h
    obtain ⟨answers,hf,hall⟩ := hgroup
    obtain ⟨answers',hgather,hall'⟩ := ih hgroups
    refine ⟨answers++answers',bind_eq_ok.mpr ⟨_,hf,bind_eq_ok.mpr ⟨_,hgather,?_⟩⟩,?_⟩
    · rw [flatten_append]
      rfl
    · exact rel_append hall hall'

/-- The rows come in the order of their seeds. A seed with different ends gets one row with a shortest path, or one
for each of them, or if there is none within the bound no row or one without a path. The search for all paths gives a
seed the rows that it gets alone. -/
theorem executeExpandShortestGrouped_answers (base : Base) (hop : Expand) (min max : Nat) (rows : List Row)
    (hmin : min ≤ 1) (hback : hop.backReference = true)
    (htypes : ∀ types, hop.edgeType = some types → types.Nodup)
    (hrows : ∀ row ∈ rows, BindsEnds hop row) :
    (∃ answers, executeExpandShortestGrouped base hop min max rows = .ok answers.flatten ∧
      Forall₂ (fun row out => ∀ n m, row.get hop.source = some (.node n) →
        row.get hop.targetAlias = some (.node m) → n.id ≠ m.id →
          ShortestRows base hop max (rows.filter (sameSource hop.source row)) row n.id m out) rows answers) ∧
    (hop.shortest = .all →
      (∀ row ∈ rows, ∀ row' ∈ rows, ∀ n n', row.get hop.source = some (.node n) →
        row'.get hop.source = some (.node n') → n.id = n'.id → n = n') →
      executeExpandShortestGrouped base hop min max rows =
        gather (fun row => executeExpandShortestGrouped base hop min max [row]) rows) := by
  constructor
  · rw [executeExpandShortestGrouped]
    refine exists_answers (flatten_splitBy _ rows) fun run hrun => ?_
    obtain ⟨row,rest,n,rfl,hn,hmem,hsource⟩ := run_of_mem_splitBy hrows hrun
    refine ⟨(row::rest).map _,expandShortestRun_eq hback hn fun row' hrow' => (hmem row' hrow').2,?_⟩
    rw [forall₂_map_right_iff,forall₂_same]
    intro row' hrow' n' m hn' hm hne
    obtain ⟨n'',hn'',hid⟩ := hsource row' hrow'
    cases hn'.symm.trans hn''
    have hgroup : row::rest ⊆ rows.filter (sameSource hop.source row') := by
      intro row'' hrow''
      obtain ⟨n₂,hn₂,hid₂⟩ := hsource row'' hrow''
      exact mem_filter.mpr ⟨(hmem row'' hrow'').1,by simp [sameSource,hn',hn₂,hid,hid₂]⟩
    rw [hid] at hne ⊢
    exact shortestRows_of_mem hmin htypes hgroup ⟨row,hgroup (.head _),hn⟩ hrow' hm hne
  · intro hall hsame
    have halone : ∀ row ∈ rows, executeExpandShortestGrouped base hop min max [row] =
        .ok (ownRows ⟨base,hop,min,max⟩ row) := by
      intro row hrow
      rw [grouped_all hmin hback hall (forall_mem_singleton.mpr (hrows row hrow)),flatMap_singleton]
      intro a ha b hb
      rw [mem_singleton.mp ha,mem_singleton.mp hb]
      exact hsame row hrow row hrow
    rw [grouped_all hmin hback hall hrows hsame,gather_of_ok halone]

end

/-- Two paths of three hops from 1 to 7, and a hop to 9. -/
def detour : Base where
  graph :=
    { nodes := ∅
      edges := ((((∅ : Edges).insert ⟨"R",6,7⟩ ∅).insert ⟨"R",5,7⟩ ∅).insert ⟨"R",3,5⟩ ∅).insert ⟨"R",2,6⟩ ∅
        |>.insert ⟨"R",1,9⟩ ∅ |>.insert ⟨"R",1,3⟩ ∅ |>.insert ⟨"R",1,2⟩ ∅ }
  edgeTypes := ["R"]
  typed := by decide
  distinct := List.nodup_singleton "R"

/-- `shortestPath((a)-[r:R*..5]->(b))` between bound nodes. -/
def shortestHop (mode : ShortestMode) : Expand where
  source := "a"
  edgeType := some ["R"]
  direction := .right
  relAlias := some "r"
  targetAlias := "b"
  targetLabels := []
  length := some ⟨1,5,none,none⟩
  optional := false
  backReference := true
  shortest := mode
  pathBinding := none
  uniqueRels := []

def endsRow (a b : NodeId) : Row := (nodeAt "a" a).set "b" (.node ⟨b,[],∅⟩)

theorem bindsEnds_endsRow (mode : ShortestMode) (a b : NodeId) : BindsEnds (shortestHop mode) (endsRow a b) :=
  ⟨⟨a,[],∅⟩,⟨b,[],∅⟩,by simp [endsRow,nodeAt,shortestHop],by simp [endsRow,shortestHop]⟩

theorem executeExpandShortestGrouped_two_targets :
    ∃ answers, executeExpandShortestGrouped detour (shortestHop .all) 1 5 [endsRow 1 7, endsRow 1 9] =
        .ok answers.flatten ∧
      Forall₂ (fun row out => ∀ n m, row.get "a" = some (.node n) → row.get "b" = some (.node m) → n.id ≠ m.id →
        ShortestRows detour (shortestHop .all) 5 ([endsRow 1 7, endsRow 1 9].filter (sameSource "a" row))
          row n.id m out)
          [endsRow 1 7, endsRow 1 9] answers := by
  refine (executeExpandShortestGrouped_answers detour (shortestHop .all) 1 5 [endsRow 1 7,endsRow 1 9] (by decide) rfl
    (by rintro _ ⟨⟩; decide) ?_).1
  simp only [forall_mem_cons]
  exact ⟨bindsEnds_endsRow _ 1 7,bindsEnds_endsRow _ 1 9,forall_mem_nil _⟩

/-- Which of two shortest paths a seed gets depends on whether another seed shares its source. -/
theorem executeExpandShortestGrouped_other_path :
    (executeExpandShortestGrouped detour (shortestHop .first) 1 5 [endsRow 1 7]).map
        (·.map fun row => (row.get "r").map boundRelKeys) =
      .ok [some [⟨"R", 1, 3⟩, ⟨"R", 3, 5⟩, ⟨"R", 5, 7⟩]] ∧
    (executeExpandShortestGrouped detour (shortestHop .first) 1 5 [endsRow 1 7, endsRow 1 9]).map
        (·.map fun row => (row.get "r").map boundRelKeys) =
      .ok [some [⟨"R", 1, 2⟩, ⟨"R", 2, 6⟩, ⟨"R", 6, 7⟩], some [⟨"R", 1, 9⟩]] := ⟨rfl,rfl⟩

end NamiDB.Cypher
