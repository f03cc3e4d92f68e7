import Mathlib.Data.List.FinRange
import Mathlib.Data.List.Perm.Basic
import Mathlib.Order.Fin.Basic
import NamiDB.Lib.Sorted
import NamiDB.Storage.Manifest

/-! The key-range index over the descriptors of a manifest: an interval tree for each level whose ranges may overlap,
a binary search for each level whose ranges do not. -/
namespace NamiDB.Storage
open Sorted List

variable {ssts : List SstDescriptor}

structure IndexedRange (ssts : List SstDescriptor) where
  descriptor : Fin ssts.length
  min : Key16
  max : Key16

def IndexedRange.new (descriptor : Fin ssts.length) : IndexedRange ssts :=
  { descriptor, min := (ssts.get descriptor).minKey, max := (ssts.get descriptor).maxKey }

def IndexedRange.key (r : IndexedRange ssts) : Key16 ×ₗ Key16 ×ₗ Fin ssts.length :=
  toLex (r.min,toLex (r.max,r.descriptor))

def IndexedRange.keyMaxDesc (r : IndexedRange ssts) : Key16ᵒᵈ ×ₗ Key16 ×ₗ Fin ssts.length :=
  toLex (OrderDual.toDual r.max,toLex (r.min,r.descriptor))

def upperBoundMin (ranges : List (IndexedRange ssts)) (target : Key16) : Nat :=
  search (fun r => r.min≤target) ranges 0 ranges.length

def lowerBoundMaxDesc (ranges : List (IndexedRange ssts)) (target : Key16) : Nat :=
  search (fun r => target≤r.max) ranges 0 ranges.length

/-- An optional node of the centred interval tree. -/
inductive IntervalNode (ssts : List SstDescriptor) where
  | none
  | some (center : Key16) (byMin byMaxDesc : List (IndexedRange ssts)) (left right : IntervalNode ssts)

def sortedValid (ranges : List (IndexedRange ssts)) : List (IndexedRange ssts) :=
  sortByKey IndexedRange.key (ranges.filter fun r => r.min≤r.max)

theorem length_side {ranges : List (IndexedRange ssts)} {median : IndexedRange ssts} {p : IndexedRange ssts → Bool}
    (h : (sortedValid ranges)[(sortedValid ranges).length/2]?=some median)
    (hp : median.min ≤ median.max → p median=false) : ((sortedValid ranges).filter p).length<ranges.length := by
  have hmem := mem_of_getElem? h
  have hvalid := (mem_filter.mp ((sortByKey_perm _ _).mem_iff.mp hmem)).2
  calc ((sortedValid ranges).filter p).length<(sortedValid ranges).length :=
        length_filter_lt_length_iff_exists.mpr ⟨median,hmem,by simp [hp (by simpa using hvalid)]⟩
    _ = (ranges.filter fun r => r.min≤r.max).length := (sortByKey_perm _ _).length_eq
    _ ≤ ranges.length := length_filter_le _ _

def IntervalNode.build (ranges : List (IndexedRange ssts)) : IntervalNode ssts :=
  let sorted := sortedValid ranges
  match _h : sorted[sorted.length/2]? with
  | .none => .none
  | .some median =>
    let center := median.min
    let crossing := sorted.filter fun r => ¬ r.max<center ∧ ¬ center<r.min
    let byMin := sortByKey IndexedRange.key crossing
    .some center byMin (sortByKey IndexedRange.keyMaxDesc byMin) (build (sorted.filter fun r => r.max<center))
      (build (sorted.filter fun r => ¬ r.max<center ∧ center<r.min))
termination_by ranges.length
decreasing_by
  · exact length_side _h fun hv => by simpa using hv
  · exact length_side _h fun _ => by simp

def IntervalNode.query (target : Key16) : IntervalNode ssts → List (Fin ssts.length)
  | .none => []
  | .some center byMin byMaxDesc left right =>
    if target<center then (byMin.take (upperBoundMin byMin target)).map (·.descriptor)++left.query target
    else if center<target then
      (byMaxDesc.take (lowerBoundMaxDesc byMaxDesc target)).map (·.descriptor)++right.query target
    else byMin.map (·.descriptor)

inductive LevelRangeIndex (ssts : List SstDescriptor) where
  | disjoint (ranges : List (IndexedRange ssts))
  | overlapping (index : IntervalNode ssts)

def LevelRangeIndex.build (ranges : List (IndexedRange ssts)) : LevelRangeIndex ssts :=
  let sorted := sortByKey IndexedRange.key ranges
  if sorted.IsChain (·.max<·.min) then .disjoint sorted else .overlapping (.build sorted)

def LevelRangeIndex.query (target : Key16) : LevelRangeIndex ssts → List (Fin ssts.length)
  | .disjoint ranges =>
    match upperBoundMin ranges target with
    | 0 => []
    | after+1 => (ranges[after]?.filter fun r => target≤r.max).toList.map (·.descriptor)
  | .overlapping index => index.query target

structure DescriptorBucket (ssts : List SstDescriptor) where
  allByMin : List (Fin ssts.length)
  l0 : IntervalNode ssts
  levels : List (Nat × LevelRangeIndex ssts)

def scanKey (i : Fin ssts.length) : Key16 ×ₗ Key16 ×ₗ Nat ×ₗ Fin ssts.length :=
  toLex ((ssts.get i).minKey,toLex ((ssts.get i).maxKey,toLex ((ssts.get i).level,i)))

def DescriptorBucket.build (descriptors : List (Fin ssts.length)) : DescriptorBucket ssts :=
  let descriptors := sortByKey scanKey descriptors
  let byLevel := groups (fun i => (ssts.get i).level) (descriptors.filter fun i => (ssts.get i).level≠0)
  { allByMin := descriptors
    l0 := .build ((descriptors.filter fun i => (ssts.get i).level=0).map .new)
    levels := sortByKey (·.1) (byLevel.map fun g => (g.1,.build (g.2.map .new))) }

def DescriptorBucket.query (self : DescriptorBucket ssts) (target : Key16) : List (Fin ssts.length) :=
  self.l0.query target++self.levels.flatMap fun l => l.2.query target

/-- The buckets by kind and scope. -/
structure DescriptorIndex (ssts : List SstDescriptor) where
  buckets : List ((SstKind × String) × DescriptorBucket ssts)

def DescriptorIndex.build (ssts : List SstDescriptor) : DescriptorIndex ssts :=
  ⟨(groups (fun i => ((ssts.get i).kind,(ssts.get i).scope)) (finRange ssts.length)).map fun g =>
    (g.1,.build g.2)⟩

def DescriptorIndex.bucket (self : DescriptorIndex ssts) (kind : SstKind) (scope : String) :
    Option (DescriptorBucket ssts) := self.buckets.lookup (kind,scope)

def DescriptorIndex.lookupCandidates (self : DescriptorIndex ssts) (kind : SstKind) (scope : String)
    (target : Key16) : List (Fin ssts.length) :=
  ((self.bucket kind scope).map (·.query target)).getD []

section
variable {ranges : List (IndexedRange ssts)} {target : Key16}

abbrev IndexedRange.Holds (target : Key16) (r : IndexedRange ssts) : Prop := r.min≤target ∧ target≤r.max

theorem sortByKey_min (ranges : List (IndexedRange ssts)) :
    (sortByKey IndexedRange.key ranges).Pairwise fun a b => a.min≤b.min :=
  (sortByKey_sorted _ _).imp fun {a b} h => Prod.Lex.monotone_fst a.key b.key h

theorem take_upperBoundMin (h : ranges.Pairwise fun a b => a.min≤b.min) :
    ranges.take (upperBoundMin ranges target)=ranges.filter (·.min≤target) :=
  take_search (h.imp fun hab hb => by
    simp only [decide_eq_true_eq] at hb ⊢
    exact hab.trans hb)

theorem take_lowerBoundMaxDesc (ranges : List (IndexedRange ssts)) :
    let sorted := sortByKey IndexedRange.keyMaxDesc ranges
    sorted.take (lowerBoundMaxDesc sorted target)=sorted.filter (target≤·.max) :=
  take_search ((sortByKey_sorted _ _).imp fun {a b} h hb => by
    have hab : b.max≤a.max := Prod.Lex.monotone_fst _ _ h
    simp only [decide_eq_true_eq] at hb ⊢
    exact hb.trans hab)

theorem filter_sortedValid (ranges : List (IndexedRange ssts)) :
    ((sortedValid ranges).filter (·.Holds target)).Perm (ranges.filter (·.Holds target)) := by
  refine ((sortByKey_perm _ _).filter _).trans (.of_eq ?_)
  rw [filter_filter]
  refine filter_congr fun r _ => ?_
  have : r.min≤target ∧ target≤r.max → r.min≤r.max := fun h => h.1.trans h.2
  simp only [Bool.and_eq_decide,decide_eq_decide,decide_eq_true_eq]
  tauto

theorem build_none (h : (sortedValid ranges)[(sortedValid ranges).length/2]?=none) :
    IntervalNode.build ranges = .none := by
  rw [IntervalNode.build]
  split <;> simp_all

theorem build_some {median : IndexedRange ssts} (h : (sortedValid ranges)[(sortedValid ranges).length/2]?=some median) :
    let byMin := sortByKey IndexedRange.key
      ((sortedValid ranges).filter fun r => ¬ r.max < median.min ∧ ¬ median.min<r.min)
    IntervalNode.build ranges = .some median.min byMin (sortByKey IndexedRange.keyMaxDesc byMin)
      (.build ((sortedValid ranges).filter fun r => r.max < median.min))
      (.build ((sortedValid ranges).filter fun r => ¬ r.max < median.min ∧ median.min<r.min)) := by
  rw [IntervalNode.build]
  split
  · simp_all
  · simp_all

theorem filter_split {xs : List (IndexedRange ssts)} (h : ∀ r, near r ∧ crossing r ↔ ¬ side r ∧ r.Holds target) :
    ((xs.filter crossing).filter near++(xs.filter side).filter (·.Holds target)).Perm
      (xs.filter (·.Holds target)) := by
  have hsplit := filter_append_perm side (xs.filter (·.Holds target))
  have h' : ∀ r, (near r&&crossing r)=(!side r&&r.Holds target) := fun r => by
    rw [Bool.eq_iff_iff]
    simpa using h r
  simp only [filter_filter,h'] at hsplit ⊢
  exact perm_append_comm.trans (by simpa only [Bool.and_comm] using hsplit)

theorem query_build (ranges : List (IndexedRange ssts)) (target : Key16) :
    ((IntervalNode.build ranges).query target).Perm ((ranges.filter (·.Holds target)).map (·.descriptor)) := by
  induction ranges using IntervalNode.build.induct with
  | case1 ranges sorted h =>
    refine .trans ?_ ((filter_sortedValid ranges).map _)
    have hempty : sortedValid ranges=[] := by
      rw [getElem?_eq_none_iff] at h
      exact eq_nil_of_length_eq_zero (by simp only [sorted] at h; omega)
    rw [build_none h,hempty]
    rfl
  | case2 ranges sorted median h center ihl ihr =>
    refine .trans ?_ ((filter_sortedValid ranges).map _)
    rw [build_some h,IntervalNode.query]
    split
    · next hlt =>
      rw [take_upperBoundMin (sortByKey_min _)]
      refine ((((sortByKey_perm _ _).filter _).map _).append ihl).trans ?_
      rw [← map_append]
      refine (filter_split fun r => ?_).map _
      grind
    split
    · next hgt =>
      rw [take_lowerBoundMaxDesc]
      refine (((((sortByKey_perm _ _).trans (sortByKey_perm _ _)).filter _).map _).append ihr).trans ?_
      rw [← map_append]
      refine (filter_split fun r => ?_).map _
      grind
    · refine ((sortByKey_perm _ _).trans (.of_eq ?_)).map _
      refine filter_congr fun r _ => ?_
      grind

/-- Of consecutive ranges that do not overlap only the last that starts at or before the target can contain it. -/
theorem query_disjoint (hmin : ranges.Pairwise fun a b => a.min≤b.min) (h : ranges.IsChain (·.max<·.min)) :
    (LevelRangeIndex.disjoint ranges).query target=(ranges.filter (·.Holds target)).map (·.descriptor) := by
  have htake : ranges.take (upperBoundMin ranges target)=ranges.filter (·.min≤target) := take_upperBoundMin hmin
  have hle : upperBoundMin ranges target≤ranges.length := search_le (Nat.zero_le _)
  have hholds : ranges.filter (·.Holds target)=(ranges.filter (·.min≤target)).filter (target≤·.max) := by
    simp [and_comm]
  have hbefore : ranges.Pairwise fun a b => a.max<b.min := pairwise_of_chain (fun hab hbc => hab.trans_le hbc) h hmin
  rw [hholds,← htake,LevelRangeIndex.query]
  generalize upperBoundMin ranges target=k at hle htake
  cases k with
  | zero => rfl
  | succ after =>
    have hlast : ranges.take (after+1)=ranges.take after++[ranges[after]] := take_succ_eq_append_getElem hle
    have hstart : ranges[after].min≤target := by
      have hmem : ranges[after]∈ranges.filter (·.min≤target) := by
        rw [← htake,hlast]
        exact mem_append_right _ (.head _)
      simpa using (mem_filter.mp hmem).2
    have hnone : (ranges.take after).filter (target≤·.max)=[] := by
      refine filter_eq_nil_iff.mpr fun r hr => ?_
      rw [← take_append_drop after ranges,drop_eq_getElem_cons hle] at hbefore
      have := (pairwise_append.mp hbefore).2.2 r hr _ (.head _)
      simpa using Nat.lt_of_lt_of_le this hstart
    dsimp only
    rw [hlast,filter_append,hnone,getElem?_eq_getElem hle]
    by_cases hmax : target≤ranges[after].max <;> simp [hmax,Nat.lt_of_not_le]

theorem level_query_build (ranges : List (IndexedRange ssts)) (target : Key16) :
    ((LevelRangeIndex.build ranges).query target).Perm ((ranges.filter (·.Holds target)).map (·.descriptor)) := by
  refine .trans ?_ (((sortByKey_perm IndexedRange.key ranges).filter _).map _)
  rw [LevelRangeIndex.build]
  split
  · next h => exact .of_eq (query_disjoint (sortByKey_min _) h)
  · exact query_build _ target

variable (descriptors : List (Fin ssts.length)) (target : Key16)

theorem filter_new : ((descriptors.map .new).filter (IndexedRange.Holds target ·)).map (·.descriptor) =
      descriptors.filter fun i => (IndexedRange.new i).Holds target := by
  rw [filter_map,map_map]
  exact map_id _

theorem levels_query : ((sortByKey (·.1) ((groups (fun i => (ssts.get i).level) descriptors).map fun g =>
      (g.1,LevelRangeIndex.build (g.2.map .new)))).flatMap fun l => l.2.query target).Perm
        (descriptors.filter fun i => (IndexedRange.new i).Holds target) := by
  refine ((sortByKey_perm _ _).flatMap_right _).trans ?_
  rw [flatMap_map]
  have hgroup := fun g : Nat × List (Fin ssts.length) =>
    (level_query_build (g.2.map .new) target).trans (.of_eq (filter_new g.2 target))
  refine (Perm.flatMap_left _ fun g _ => hgroup g).trans ?_
  rw [← filter_flatMap]
  exact (groups_perm _).filter _

theorem bucket_query_build : ((DescriptorBucket.build descriptors).query target).Perm
      (descriptors.filter fun i => (IndexedRange.new i).Holds target) := by
  refine (((query_build _ _).trans (.of_eq (filter_new _ _))).append (levels_query _ _)).trans ?_
  rw [← filter_append]
  refine .filter _ ?_
  refine .trans ?_ (sortByKey_perm scanKey descriptors)
  simpa using filter_append_perm (fun i => (ssts.get i).level=0) _

theorem lookupCandidates_perm (ssts : List SstDescriptor) (kind : SstKind) (scope : String) (target : Key16) :
    ((DescriptorIndex.build ssts).lookupCandidates kind scope target).Perm
      (((finRange ssts.length).filter fun i => ((ssts.get i).kind,(ssts.get i).scope)=(kind,scope)).filter
        fun i => (IndexedRange.new i).Holds target) := by
  rw [← lookup_groups,DescriptorIndex.lookupCandidates,DescriptorIndex.bucket,DescriptorIndex.build]
  rw [lookup_map_snd]
  cases (groups (fun i => ((ssts.get i).kind,(ssts.get i).scope)) (finRange ssts.length)).lookup (kind,scope) with
  | none => exact .nil
  | some descriptors => exact bucket_query_build descriptors target

theorem descriptor_lookup (ssts : List SstDescriptor) (kind : SstKind) (scope : String) (target : Key16) :
    ((DescriptorIndex.build ssts).lookupCandidates kind scope target).Nodup ∧
      ∀ i, i ∈ (DescriptorIndex.build ssts).lookupCandidates kind scope target ↔
        (ssts.get i).kind = kind ∧ (ssts.get i).scope = scope ∧
          (ssts.get i).minKey ≤ target ∧ target ≤ (ssts.get i).maxKey := by
  have hperm := lookupCandidates_perm ssts kind scope target
  refine ⟨hperm.nodup_iff.mpr (((nodup_finRange _).filter _).filter _),fun i => ?_⟩
  rw [hperm.mem_iff,mem_filter,mem_filter,decide_eq_true_iff,decide_eq_true_iff,Prod.mk.injEq]
  exact ⟨fun ⟨⟨_,hkind,hscope⟩,hmin,hmax⟩ => ⟨hkind,hscope,hmin,hmax⟩,
    fun ⟨hkind,hscope,hholds⟩ => ⟨⟨mem_finRange i,hkind,hscope⟩,hholds⟩⟩

end
end NamiDB.Storage
