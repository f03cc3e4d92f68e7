import NamiDB.Bolt.Session
import NamiDB.Lib.Fallible

/-! How a result value goes on the wire, and how a client reads a path back. The converter that consumes its
argument differs from the one that borrows it in where a malformed path is noticed. -/
namespace NamiDB.Bolt
open List
open Query (RuntimeValue NodeValue RelValue)
open Storage (NodeId Properties)

section

def tagNode : UInt8 := 0x4E
def tagRelationship : UInt8 := 0x52
def tagUnboundRelationship : UInt8 := 0x72
def tagPath : UInt8 := 0x50
def tagDate : UInt8 := 0x44
def tagLocalDatetime : UInt8 := 0x64

/-- What other crates compute: the text of a UUID, the hash of an edge as an `i64`, and `f32` arithmetic. -/
class Foreign where
  uuidText : NodeId → String
  edgeHash : NodeId → NodeId → String → Int
  widen : BitVec 32 → BitVec 64
  scaled : Int → BitVec 32 → BitVec 64

variable [Foreign] (mode : ElementIdMode)

def uuidToBoltIds (u : NodeId) : Int × String := ((BitVec.ofNat 64 u).toInt,Foreign.uuidText u)

def syntheticEdgeId (src dst : NodeId) (edgeType : String) : Int × String :=
  (Foreign.edgeHash src dst edgeType,edgeType ++ "-" ++ Foreign.uuidText src ++ "->" ++ Foreign.uuidText dst)

mutual
/-- `graph` converts a node, a relationship, or a path with its items already converted. -/
def runtimeWith (graph : RuntimeValue → List Value → Value) : RuntimeValue → Value
  | .null => .null
  | .bool b => .bool b
  | .integer n => .int n
  | .float f => .float f
  | .string s => .string s
  | .bytes b => .bytes b
  | .vector xs => .list (xs.map fun x => .float (Foreign.widen x))
  | .vector8 codes scale => .list (codes.map fun c => .float (Foreign.scaled c scale))
  | .list xs => .list (runtimeAllWith graph xs)
  | .map entries => .map (runtimeEntriesWith graph entries)
  | .date days => .struct tagDate [.int days]
  | .dateTime micros => .struct tagLocalDatetime [.int (micros/1000000),.int (micros%1000000*1000)]
  | .node n => graph (.node n) []
  | .rel r => graph (.rel r) []
  | .path items => graph (.path items) (runtimeAllWith graph items)

def runtimeAllWith (graph : RuntimeValue → List Value → Value) : List RuntimeValue → List Value
  | [] => []
  | v::vs => runtimeWith graph v::runtimeAllWith graph vs

def runtimeEntriesWith (graph : RuntimeValue → List Value → Value) : List (String × RuntimeValue) → ValueMap
  | [] => []
  | (k,v)::vs => (k,runtimeWith graph v)::runtimeEntriesWith graph vs
end

def propertiesToBolt (properties : Properties) : Value :=
  .map (properties.entries.foldl (fun m e => ValueMap.insert e.1 (runtimeWith (fun _ _ => .null) (.ofCore e.2)) m) [])

def withElementIds (fields : List Value) (ids : List String) : List Value :=
  match mode with
  | .integerIds => fields
  | .elementIds => fields++ids.map .string

def nodeToBolt (n : NodeValue) : Value :=
  let (id,elementId) := uuidToBoltIds n.id
  .struct tagNode (withElementIds mode
    [.int id,.list (n.labels.map .string),propertiesToBolt n.properties] [elementId])

def relToBolt (r : RelValue) : Value :=
  let (id,elementId) := syntheticEdgeId r.src r.dst r.edgeType
  let (startId,startElementId) := uuidToBoltIds r.src
  let (endId,endElementId) := uuidToBoltIds r.dst
  .struct tagRelationship (withElementIds mode
    [.int id,.int startId,.int endId,.string r.edgeType,propertiesToBolt r.properties]
    [elementId,startElementId,endElementId])

def unboundRel (r : RelValue) : Value :=
  let (id,elementId) := syntheticEdgeId r.src r.dst r.edgeType
  .struct tagUnboundRelationship (withElementIds mode
    [.int id,.string r.edgeType,propertiesToBolt r.properties] [elementId])

end

section

structure PathState where
  nodes : List NodeValue := []
  nodeIndex : AList (fun _ : NodeId => Int) := ∅
  rels : List RelValue := []
  indices : List Int := []
  prevNodeId : Option NodeId := none
  pendingRel : Option RelValue := none

namespace PathState

def place (st : PathState) (node : NodeValue) : Int × PathState :=
  match st.nodeIndex.lookup node.id with
  | some i => (i,st)
  | none => (st.nodes.length,
      { st with nodes := st.nodes++[node], nodeIndex := st.nodeIndex.insert node.id st.nodes.length })

/-- The relationship that led here is positive when it starts at the node before. -/
def arrive (st : PathState) (idx : Int) : PathState :=
  match st.pendingRel with
  | none => st
  | some rel =>
    let relIdx : Int := st.rels.length+1
    let forward := st.prevNodeId=some rel.src
    { st with
      rels := st.rels++[rel]
      indices := st.indices++[if forward then relIdx else -relIdx,idx]
      pendingRel := none }

def step (st : PathState) : RuntimeValue → Option PathState
  | .node node =>
    let (idx,st) := st.place node
    some { st.arrive idx with prevNodeId := some node.id }
  | .rel rel => some { st with pendingRel := some rel }
  | _ => none

end PathState

def isPathItem : RuntimeValue → Bool
  | .node _ | .rel _ => true
  | _ => false

theorem foldlM_step (items : List RuntimeValue) (st : PathState) : items.foldlM PathState.step st =
    if items.any (!isPathItem ·) then none else some (items.foldl (fun st v => (st.step v).getD st) st) := by
  induction items generalizing st with
  | nil => rfl
  | cons v items ih =>
    cases v with
    | node n | rel r => exact ih _
    | _ => rfl

variable [Foreign] (mode : ElementIdMode)

def pathStruct (st : PathState) : Value :=
  .struct tagPath [.list (st.nodes.map (nodeToBolt mode)),.list (st.rels.map (unboundRel mode)),
    .list (st.indices.map .int)]

/-- `converted` are the items as plain values, for a path that holds something else. -/
def pathToBolt (items : List RuntimeValue) (converted : List Value) : Value :=
  match items.foldlM PathState.step {} with
  | some st => pathStruct mode st
  | none => .list converted

/-- The shape is checked first, so that the loop meets nothing else. -/
def pathToBoltOwned (items : List RuntimeValue) (converted : List Value) : Value :=
  if items.any (!isPathItem ·) then .list converted
  else pathStruct mode (items.foldl (fun st v => (st.step v).getD st) {})

def graphWith (path : List RuntimeValue → List Value → Value) : RuntimeValue → List Value → Value
  | .node n, _ => nodeToBolt mode n
  | .rel r, _ => relToBolt mode r
  | .path items, converted => path items converted
  | _, _ => .null

def runtimeToBolt (v : RuntimeValue) : Value := runtimeWith (graphWith mode (pathToBolt mode)) v
def runtimeToBoltOwned (v : RuntimeValue) : Value := runtimeWith (graphWith mode (pathToBoltOwned mode)) v

theorem pathToBolt_eq_owned : pathToBolt mode=pathToBoltOwned mode := by
  funext items converted
  rw [pathToBolt,pathToBoltOwned,foldlM_step]
  by_cases h : items.any (!isPathItem ·)=true
  · rw [if_pos h,if_pos h]
  · rw [if_neg h,if_neg h]

theorem runtimeToBolt_eq_owned (v : RuntimeValue) : runtimeToBolt mode v=runtimeToBoltOwned mode v := by
  rw [runtimeToBolt,runtimeToBoltOwned,pathToBolt_eq_owned]

end

structure Step (N R : Type) where
  rel : R
  start : N
  stop : N
  node : N

def Step.map {N N' R R' : Type} (f : N → N') (g : R → R') (s : Step N R) : Step N' R' :=
  ⟨g s.rel,f s.start,f s.stop,f s.node⟩

/-- The index rule of the protocol: a relationship index counts from one and is negative against the
direction, a node index counts from zero. -/
def followIndices {N R : Type} (nodes : List N) (rels : List R) : N → List Int → Option (List (Step N R))
  | _, [] => some []
  | _, [_] => none
  | prev, r::n::rest => do
    guard (r≠0 ∧ 0≤n)
    let rel ← rels[r.natAbs-1]?
    let node ← nodes[n.toNat]?
    let steps ← followIndices nodes rels node rest
    let (start,stop) := if 0<r then (prev,node) else (node,prev)
    return ⟨rel,start,stop,node⟩::steps

def asInt : Value → Option Int
  | .int n => some n
  | _ => none

def rebuild : Value → Option (Value × List (Step Value Value))
  | .struct tag [.list nodes,.list rels,.list indices] => do
    guard (tag=tagPath)
    let first ← nodes.head?
    let steps ← followIndices nodes rels first (← indices.mapM asInt)
    return (first,steps)
  | _ => none

structure Hop where
  rel : RelValue
  node : NodeValue

def hopItems (hops : List Hop) : List RuntimeValue := hops.flatMap fun h => [.rel h.rel,.node h.node]

def Joined : NodeValue → List Hop → Prop
  | _, [] => True
  | prev, h::rest =>
    (h.rel.src=prev.id ∧ h.rel.dst=h.node.id ∨ h.rel.src=h.node.id ∧ h.rel.dst=prev.id) ∧
      Joined h.node rest

/-- The step tells of the hop: the same relationship and node, from source to destination. -/
structure Tells (s : Step NodeValue RelValue) (h : Hop) : Prop where
  rel : s.rel=h.rel
  node : s.node.id=h.node.id
  start : s.start.id=h.rel.src
  stop : s.stop.id=h.rel.dst

theorem mapM_asInt (is : List Int) : (is.map Value.int).mapM asInt=some is := by
  induction is with
  | nil => rfl
  | cons i is ih => simp [mapM_cons,ih,asInt]

def Indexed (S : NodeValue → Prop) (st : PathState) : Prop :=
  ∀ id i, st.nodeIndex.lookup id=some i → 0 ≤ i ∧ ∃ n, st.nodes[i.toNat]?=some n ∧ n.id=id ∧ S n

theorem getElem?_of_isPrefix {l l' : List α} {i : Nat} {a : α} (h : l <+: l') (hi : l[i]?=some a) :
    l'[i]?=some a := by
  obtain ⟨t,rfl⟩ := h
  rw [List.getElem?_append_left (List.getElem?_eq_some_iff.mp hi).1,hi]

section
variable {S : NodeValue → Prop} {st : PathState}

theorem place_spec (st : PathState) (h : Indexed S st) (hS : S node) :
    ∃ i nodes nodeIndex n, st.place node=(i,{ st with nodes, nodeIndex }) ∧ 0 ≤ i ∧
      Indexed S { st with nodes, nodeIndex } ∧ st.nodes <+: nodes ∧ nodes[i.toNat]?=some n ∧ n.id=node.id ∧ S n := by
  unfold PathState.place
  cases hl : st.nodeIndex.lookup node.id with
  | some i =>
    obtain ⟨hi,n,hn,hid⟩ := h _ _ hl
    exact ⟨i,st.nodes,st.nodeIndex,n,rfl,hi,h,prefix_refl _,hn,hid⟩
  | none =>
    have hpre : st.nodes <+: st.nodes++[node] := prefix_append _ _
    refine ⟨st.nodes.length,_,_,node,rfl,Int.natCast_nonneg _,fun id i hi => ?_,hpre,by simp,rfl,hS⟩
    by_cases hid : id=node.id
    · subst hid
      obtain rfl : (st.nodes.length : Int)=i := by simpa using hi
      exact ⟨Int.natCast_nonneg _,node,by simp,rfl,hS⟩
    · obtain ⟨h0,n,hn,hn'⟩ := h id i ((AList.lookup_insert_ne hid).symm.trans hi)
      exact ⟨h0,n,getElem?_of_isPrefix hpre hn,hn'⟩

/-- What the loop adds for the hops of a path is read back by the index rule, whatever is added later. -/
theorem hops_read {N R : Type} (f : NodeValue → N) (g : RelValue → R) (hops : List Hop) {prev m : NodeValue}
    (hidx : Indexed S st) (hprev : st.prevNodeId=some prev.id) (hpend : st.pendingRel=none)
    (hm : m.id=prev.id) (hS : ∀ h ∈ hops, S h.node) (hj : Joined prev hops) :
    ∃ st' is steps, (hopItems hops).foldlM PathState.step st=some st' ∧ st.nodes <+: st'.nodes ∧
      st.rels <+: st'.rels ∧ st'.indices=st.indices++is ∧
      Forall₂ (fun s h => Tells s h ∧ S s.node ∧ S h.node) steps hops ∧
      ∀ nodes rels, st'.nodes <+: nodes → st'.rels <+: rels →
        followIndices (nodes.map f) (rels.map g) (f m) is=some (steps.map (Step.map f g)) := by
  induction hops generalizing st prev m with
  | nil => exact ⟨st,[],[],rfl,prefix_refl _,prefix_refl _,by simp,.nil,fun _ _ _ _ => rfl⟩
  | cons h rest ih =>
    obtain ⟨hends,hj⟩ := hj
    obtain ⟨i,nodes',index',n,hplace,hi,hidx',hpre,hn,hid,hSn⟩ :=
      place_spec { st with pendingRel := some h.rel } hidx (hS h (.head _))
    obtain ⟨k,hk⟩ : ∃ k : Int, k=if prev.id=h.rel.src then (st.rels.length+1 : Int) else -(st.rels.length+1) :=
      ⟨_,rfl⟩
    have hstep : PathState.step { st with pendingRel := some h.rel } (.node h.node) =
        some ⟨nodes',index',st.rels++[h.rel],st.indices++[k,i],some h.node.id,none⟩ := by
      simp only [PathState.step,hplace,PathState.arrive]
      simp [hprev,hk]
    obtain ⟨st',is,steps,hrun,hnodes,hrels,hind,htells,hread⟩ := ih
      (show Indexed S ⟨nodes',index',st.rels++[h.rel],st.indices++[k,i],some h.node.id,none⟩ from hidx')
      rfl rfl hid (fun x hx => hS x (.tail _ hx)) hj
    have habs : k≠0 ∧ k.natAbs-1=st.rels.length ∧ (0<k ↔ prev.id=h.rel.src) := by
      rw [hk]
      split
      · exact ⟨by omega,by omega,iff_of_true (by omega) ‹_›⟩
      · exact ⟨by omega,by omega,iff_of_false (by omega) ‹_›⟩
    refine ⟨st',k::i::is,⟨h.rel,if 0<k then m else n,if 0<k then n else m,n⟩::steps,?_,
      hpre.trans hnodes,(prefix_append _ _).trans hrels,?_,.cons ⟨?_,hSn,hS h (.head _)⟩ htells,
        fun nodes rels hns hrs => ?_⟩
    · change (PathState.step { st with pendingRel := some h.rel } (.node h.node)).bind
        (fun st => (hopItems rest).foldlM PathState.step st) = _
      rw [hstep]
      exact hrun
    · simpa using hind
    · refine ⟨rfl,hid,?_,?_⟩
      · grind
      · grind
    · have hrel : rels[k.natAbs-1]?=some h.rel := getElem?_of_isPrefix (hrels.trans hrs) (by simp [habs.2.1])
      have hnode : nodes[i.toNat]?=some n := getElem?_of_isPrefix (hnodes.trans hns) hn
      have hrest := hread nodes rels hns hrs
      simp only [followIndices]
      by_cases hpos : 0<k <;> simp [habs.1,hi,hrel,hnode,hrest,hpos,Step.map]

end

section
variable [Foreign] (mode : ElementIdMode)

/-- Every path is read back as its nodes and relationships, each relationship from its source to its destination; a
node as its first occurrence, which is the node itself when one id names one node. The consuming converter gives the
same structure. -/
theorem path_rebuilt (first : NodeValue) (hops : List Hop) (hj : Joined first hops) :
    (∃ steps : List (Step NodeValue RelValue),rebuild (runtimeToBolt mode (.path (.node first :: hopItems hops))) =
        some (nodeToBolt mode first, steps.map (Step.map (nodeToBolt mode) (unboundRel mode))) ∧
      Forall₂ Tells steps hops ∧
      ((∀ a ∈ first :: hops.map (·.node), ∀ b ∈ first :: hops.map (·.node), a.id = b.id → a = b) →
        steps.map (·.node) = hops.map (·.node))) ∧
    runtimeToBolt mode (.path (.node first :: hopItems hops)) =
      runtimeToBoltOwned mode (.path (.node first :: hopItems hops)) := by
  refine ⟨?_,runtimeToBolt_eq_owned mode _⟩
  let st : PathState := ⟨[first],(∅ : AList fun _ : NodeId => Int).insert first.id 0,[],[],some first.id,none⟩
  have hidx : Indexed (·∈first::hops.map (·.node)) st := by
    intro id i hi
    by_cases hid : id=first.id
    · subst hid
      rw [AList.lookup_insert] at hi
      cases hi
      exact ⟨Int.le_refl 0,first,rfl,rfl,.head _⟩
    · rw [AList.lookup_insert_ne hid] at hi
      cases hi
  obtain ⟨st',is,steps,hrun,hnodes,-,hind,htells,hread⟩ := hops_read (nodeToBolt mode) (unboundRel mode) hops
    hidx rfl rfl rfl (fun h hh => .tail _ (mem_map_of_mem hh)) hj
  refine ⟨steps,?_,htells.imp fun _ _ h => h.1,fun hsame => ?_⟩
  · have hloop : (RuntimeValue.node first::hopItems hops).foldlM PathState.step {}=some st' := hrun
    obtain ⟨t,ht⟩ := hnodes
    have hfollow := hread _ _ (prefix_refl _) (prefix_refl _)
    rw [← ht] at hfollow
    rw [runtimeToBolt,runtimeWith,graphWith,pathToBolt,hloop]
    simp only [pathStruct,rebuild,← ht,hind,mapM_asInt]
    change (followIndices (map (nodeToBolt mode) (st.nodes++t)) (map (unboundRel mode) st'.rels)
      (nodeToBolt mode first) is).bind _ = _
    rw [hfollow]
    rfl
  · exact Lib.map_eq_map htells fun s _ h hsh => hsame _ hsh.2.1 _ hsh.2.2 hsh.1.node

end

def revisiting : List Hop :=
  [⟨⟨"KNOWS",1,2,∅⟩,⟨2,[],∅⟩⟩,⟨⟨"KNOWS",1,2,∅⟩,⟨1,[],∅⟩⟩,⟨⟨"LIKES",1,1,∅⟩,⟨1,[],∅⟩⟩]

@[reducible] def Foreign.constant : Foreign := ⟨fun _ => "",fun _ _ _ => 0,fun _ => 0,fun _ _ => 0⟩

theorem path_rebuilt_revisiting : letI := Foreign.constant
    ∃ steps, rebuild (runtimeToBolt .elementIds (.path (.node ⟨1,[],∅⟩::hopItems revisiting))) =
        some (nodeToBolt .elementIds ⟨1,[],∅⟩,steps.map (Step.map (nodeToBolt .elementIds) (unboundRel .elementIds))) ∧
      Forall₂ Tells steps revisiting := by
  let := Foreign.constant
  obtain ⟨⟨steps,hs,ht,-⟩,-⟩ := path_rebuilt .elementIds ⟨1,[],∅⟩ revisiting (by simp [revisiting,Joined])
  exact ⟨steps,hs,ht⟩

end NamiDB.Bolt
