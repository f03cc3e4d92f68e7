import Mathlib.Data.List.Induction
import Mathlib.Data.List.Sort

/-! The first elements of a stable sort from a heap that holds no more of them than are asked for. -/
namespace NamiDB.Lib
open List

section

variable {α : Type*} (cmp : α → α → Ordering) (bound : Nat)

def placedCmp (a b : α × Nat) : Ordering := (cmp a.1 b.1).then (compare a.2 b.2)

def greatest : List (α × Nat) → Option (α × Nat)
  | [] => none
  | a::heap => some (heap.foldl (fun worst b => if placedCmp cmp worst b = .lt then b else worst) a)

/-- Without room an element has to be less than the root, which then leaves. -/
def offer (heap : List (α × Nat)) (a : α × Nat) : List (α × Nat) :=
  if heap.length<bound then a::heap
  else match greatest cmp heap with
    | some worst => if placedCmp cmp a worst = .lt then a::heap.filter fun b => b.2≠worst.2 else heap
    | none => heap

def topK (l : List α) : List α :=
  ((l.zipIdx.foldl (offer cmp bound) []).mergeSort fun a b => placedCmp cmp a b != .gt).map Prod.fst

end

section

variable {α β : Type*} {cmp : α → α → Ordering} {bound : Nat} (f : β → α)

theorem placedCmp_map (a b : β × Nat) : placedCmp cmp (Prod.map f id a) (Prod.map f id b) =
    placedCmp (fun a b => cmp (f a) (f b)) a b := rfl

variable (heap : List (β × Nat))

theorem greatest_map : greatest cmp (heap.map (Prod.map f id)) =
    (greatest (fun a b => cmp (f a) (f b)) heap).map (Prod.map f id) := by
  cases heap with
  | nil => rfl
  | cons a heap =>
    simp only [greatest,map_cons,Option.map_some]
    induction heap generalizing a with
    | nil => rfl
    | cons b heap ih =>
      rw [map_cons,foldl_cons,foldl_cons,← ih]
      by_cases h : placedCmp (fun a b => cmp (f a) (f b)) a b = .lt
      · rw [placedCmp_map,if_pos h,if_pos h]
      · rw [placedCmp_map,if_neg h,if_neg h]

theorem offer_map (a : β × Nat) : offer cmp bound (heap.map (Prod.map f id)) (Prod.map f id a) =
      (offer (fun a b => cmp (f a) (f b)) bound heap a).map (Prod.map f id) := by
  simp only [offer,length_map,greatest_map]
  split_ifs
  · rfl
  · cases greatest (fun a b => cmp (f a) (f b)) heap with
    | none => rfl
    | some worst =>
      change (if placedCmp (fun a b => cmp (f a) (f b)) a worst = .lt then _ else _) =
        map _ (if placedCmp (fun a b => cmp (f a) (f b)) a worst = .lt then _ else _)
      by_cases h : placedCmp (fun a b => cmp (f a) (f b)) a worst = .lt
      · rw [if_pos h,if_pos h,map_cons,filter_map]
        rfl
      · rw [if_neg h,if_neg h]

/-- Only the comparisons matter. -/
theorem topK_map (l : List β) : topK cmp bound (l.map f)=(topK (fun a b => cmp (f a) (f b)) bound l).map f := by
  have hheap : ∀ (items heap : List (β × Nat)), (items.map (Prod.map f id)).foldl (offer cmp bound)
      (heap.map (Prod.map f id)) =
      (items.foldl (offer (fun a b => cmp (f a) (f b)) bound) heap).map (Prod.map f id) := by
    intro items
    induction items with
    | nil => exact fun _ => rfl
    | cons a items ih => intro heap; rw [map_cons,foldl_cons,foldl_cons,offer_map,ih]
  have hall := hheap l.zipIdx []
  rw [map_nil] at hall
  rw [topK,topK,zipIdx_map,hall,← map_mergeSort (r := fun a b => placedCmp (fun a b => cmp (f a) (f b)) a b != .gt)
    fun _ _ _ _ => rfl,map_map,map_map]
  rfl

end

section

variable {α : Type*} {cmp : α → α → Ordering} {bound : Nat}

structure Sorts (cmp : α → α → Ordering) : Prop where
  swap : ∀ a b, cmp b a=(cmp a b).swap
  trans : ∀ a b c, cmp a b ≠ .gt → cmp b c ≠ .gt → cmp a c ≠ .gt

abbrev TransOn (cmp : α → α → Ordering) (l : List α) : Prop :=
  ∀ a ∈ l, ∀ b ∈ l, ∀ c ∈ l, cmp a b ≠ .gt → cmp b c ≠ .gt → cmp a c ≠ .gt

def leOf (cmp : α → α → Ordering) (a b : α) : Bool := cmp a b != .gt

theorem leOf_iff : leOf cmp a b=true ↔ cmp a b ≠ .gt := by simp [leOf]

namespace Sorts

variable (h : Sorts cmp)

include h in
theorem leOf_total (a b : α) : (leOf cmp a b||leOf cmp b a)=true := by
  rw [leOf,leOf,h.swap a b]
  cases cmp a b <;> rfl

include h in
theorem leOf_trans (a b c : α) (hab : leOf cmp a b=true) (hbc : leOf cmp b c=true) : leOf cmp a c=true :=
  leOf_iff.mpr (h.trans a b c (leOf_iff.mp hab) (leOf_iff.mp hbc))

include h in
theorem placed (a b : α × Nat) : (placedCmp cmp a b != .gt)=zipIdxLE (leOf cmp) a b := by
  rw [zipIdxLE,leOf,leOf,h.swap a.1 b.1,placedCmp]
  cases cmp a.1 b.1 with
  | lt | gt => rfl
  | eq =>
    change (compare a.2 b.2 != .gt)=decide (a.2≤b.2)
    rw [Bool.eq_iff_iff,decide_eq_true_iff,bne_iff_ne,← Nat.isLE_compare,Ordering.isLE_iff_ne_gt]

end Sorts

def placedLe (cmp : α → α → Ordering) (a b : α × Nat) : Prop := zipIdxLE (leOf cmp) a b=true

instance (cmp : α → α → Ordering) : DecidableRel (placedLe cmp) := fun _ _ => inferInstanceAs (Decidable (_ = true))

section

variable (h : Sorts cmp) {a b c : α × Nat}

include h

theorem placedLe_trans (hab : placedLe cmp a b) (hbc : placedLe cmp b c) : placedLe cmp a c :=
  zipIdxLE_trans h.leOf_trans a b c hab hbc

theorem placedLe_total (a b : α × Nat) : placedLe cmp a b ∨ placedLe cmp b a := by
  simpa [placedLe] using zipIdxLE_total h.leOf_total a b

theorem placedLe_iff : placedLe cmp a b ↔ placedCmp cmp a b ≠ .gt := by
  rw [placedLe,← h.placed,bne_iff_ne]

theorem placedCmp_swap (a b : α × Nat) : placedCmp cmp b a=(placedCmp cmp a b).swap := by
  rw [placedCmp,placedCmp,h.swap a.1 b.1,Ordering.swap_then,Nat.compare_swap]

theorem placedCmp_lt_iff : placedCmp cmp a b = .lt ↔ ¬ placedLe cmp b a := by
  rw [placedLe_iff h,placedCmp_swap h a b]
  cases placedCmp cmp a b <;> simp

theorem place_eq (hab : placedLe cmp a b) (hba : placedLe cmp b a) : a.2=b.2 := by
  rw [placedLe_iff h] at hab hba
  rw [placedCmp_swap h a b] at hba
  have heq : placedCmp cmp a b = .eq := by
    cases hcmp : placedCmp cmp a b with
    | lt => simp [hcmp] at hba
    | gt => exact absurd hcmp hab
    | eq => rfl
  rw [placedCmp,Ordering.then_eq_eq] at heq
  exact Nat.compare_eq_eq.mp heq.2

end

section

variable (h : Sorts cmp) {items heap : List (α × Nat)} {l : List (α × Nat)}

include h

theorem exists_greatest (hne : heap≠[]) :
    ∃ worst ∈ heap, greatest cmp heap=some worst ∧ ∀ b ∈ heap, placedLe cmp b worst := by
  have hfold : ∀ (rest : List (α × Nat)) (a : α × Nat), ∃ worst ∈ a :: rest,
      rest.foldl (fun worst b => if placedCmp cmp worst b = .lt then b else worst) a=worst ∧
        ∀ b ∈ a :: rest, placedLe cmp b worst := by
    intro rest
    induction rest with
    | nil =>
      intro a
      exact ⟨a,.head _,rfl,forall_mem_singleton.mpr ((placedLe_total h a a).elim id id)⟩
    | cons b rest ih =>
      intro a
      rw [foldl_cons]
      by_cases hlt : placedCmp cmp a b = .lt
      · rw [if_pos hlt]
        obtain ⟨worst,hmem,hworst,hall⟩ := ih b
        have hab : placedLe cmp a b := (placedLe_total h a b).resolve_right ((placedCmp_lt_iff h).mp hlt)
        exact ⟨worst,.tail _ hmem,hworst,forall_mem_cons.mpr ⟨placedLe_trans h hab (hall b (.head _)),hall⟩⟩
      · rw [if_neg hlt]
        obtain ⟨worst,hmem,hworst,hall⟩ := ih a
        have hba : placedLe cmp b a := not_not.mp fun hn => hlt ((placedCmp_lt_iff h).mpr hn)
        obtain ⟨ha,hrest⟩ := forall_mem_cons.mp hall
        refine ⟨worst,?_,hworst,forall_mem_cons.mpr ⟨ha,forall_mem_cons.mpr ⟨placedLe_trans h hba ha,hrest⟩⟩⟩
        exact (mem_cons.mp hmem).elim (fun e => e ▸ mem_cons_self)
          fun hm => .tail _ (.tail _ hm)
  cases heap with
  | nil => exact absurd rfl hne
  | cons a rest =>
    obtain ⟨worst,hmem,hworst,hall⟩ := hfold rest a
    exact ⟨worst,hmem,congrArg some hworst,hall⟩

theorem sorted_unique (hplaces : (l.map Prod.snd).Nodup) (hl : l.Pairwise (placedLe cmp))
    (hl' : l'.Pairwise (placedLe cmp)) (hperm : l.Perm l') : l=l' := by
  refine Perm.eq_of_pairwise (fun a b ha hb hab hba => ?_) hl hl' hperm
  exact inj_on_of_nodup_map hplaces ha (hperm.mem_iff.mpr hb) (place_eq h hab hba)

theorem pairwise_placed (l : List (α × Nat)) : (l.mergeSort (zipIdxLE (leOf cmp))).Pairwise (placedLe cmp) :=
  pairwise_mergeSort (zipIdxLE_trans h.leOf_trans) (zipIdxLE_total h.leOf_total) l

theorem pairwise_orderedInsert (x : α × Nat) (hl : l.Pairwise (placedLe cmp)) :
    (l.orderedInsert (placedLe cmp) x).Pairwise (placedLe cmp) := by
  have : Std.Total (placedLe cmp) := ⟨placedLe_total h⟩
  have : IsTrans (α × Nat) (placedLe cmp) := ⟨fun _ _ _ => placedLe_trans h⟩
  exact hl.orderedInsert x l

omit h in
theorem orderedInsert_before (hx : placedLe cmp x w) (l rest : List (α × Nat)) :
    (l++w::rest).orderedInsert (placedLe cmp) x=l.orderedInsert (placedLe cmp) x++w::rest := by
  induction l with
  | nil => simp [hx]
  | cons b l ih =>
    by_cases hb : placedLe cmp x b
    · simp [hb]
    · simp [hb,ih]

omit h in
theorem orderedInsert_after (hl : ∀ b ∈ l, ¬ placedLe cmp x b) (rest : List (α × Nat)) :
    (l++rest).orderedInsert (placedLe cmp) x=l++rest.orderedInsert (placedLe cmp) x := by
  induction l with
  | nil => rfl
  | cons b l ih =>
    obtain ⟨hb,hl⟩ := forall_mem_cons.mp hl
    simp [hb,ih hl]

theorem offer_perm (hsorted : sorted.Pairwise (placedLe cmp)) (hplaces : ((x::sorted).map Prod.snd).Nodup)
    (hheap : heap.Perm (sorted.take bound)) :
    (offer cmp bound heap x).Perm ((sorted.orderedInsert (placedLe cmp) x).take bound) := by
  obtain ⟨hfresh,hplaces⟩ := nodup_cons.mp hplaces
  have hlen : heap.length=min bound sorted.length := by rw [hheap.length_eq,length_take]
  rw [offer]
  by_cases hroom : heap.length<bound
  · have hall : sorted.length<bound := by omega
    rw [if_pos hroom,take_of_length_le (by rw [orderedInsert_length]; omega)]
    rw [take_of_length_le hall.le] at hheap
    exact (hheap.cons x).trans (perm_orderedInsert _ x sorted).symm
  · rw [if_neg hroom]
    cases bound with
    | zero =>
      rw [take_zero,perm_nil] at hheap
      subst hheap
      exact .refl _
    | succ k =>
      -- The last element that is kept is the root.
      have hk : k<sorted.length := by omega
      have hsplit : sorted=sorted.take k++sorted[k]::sorted.drop (k+1) := by
        rw [getElem_cons_drop,take_append_drop]
      set w := sorted[k] with hw
      set before := sorted.take k with hbefore
      have hkept : sorted.take (k+1)=before++[w] := take_succ_eq_append_getElem hk
      rw [hkept] at hheap
      have hlast : ∀ b ∈ before ++ [w], placedLe cmp b w := by
        rw [hsplit] at hsorted
        obtain ⟨-,-,hcross⟩ := pairwise_append.mp hsorted
        exact forall_mem_append.mpr ⟨fun b hb => hcross b hb w (.head _),
          forall_mem_singleton.mpr ((placedLe_total h w w).elim id id)⟩
      have hwmem : w∈heap := hheap.mem_iff.mpr (mem_append_right _ (.head _))
      obtain ⟨worst,hmem,hworst,hall⟩ := exists_greatest h (ne_nil_of_mem hwmem)
      have hsub : ∀ b ∈ before ++ [w], b∈sorted := by
        intro b hb
        rw [← hkept] at hb
        exact mem_of_mem_take hb
      obtain rfl : worst=w :=
        inj_on_of_nodup_map hplaces (hsub _ (hheap.mem_iff.mp hmem)) (getElem_mem hk)
          (place_eq h (hlast _ (hheap.mem_iff.mp hmem)) (hall w hwmem))
      rw [hworst]
      dsimp only
      have hlenBefore : before.length=k := by rw [hbefore,length_take]; omega
      by_cases hlt : placedCmp cmp x w = .lt
      · have hxw : placedLe cmp x w := (placedLe_total h x w).resolve_right ((placedCmp_lt_iff h).mp hlt)
        have hother : (before++[w]).filter (fun b => b.2≠w.2)=before := by
          have hnodup : ((before++[w]).map Prod.snd).Nodup := by
            rw [← hkept,map_take]
            exact hplaces.sublist (take_sublist _ _)
          rw [map_append,nodup_append] at hnodup
          have hne : ∀ b ∈ before, b.2≠w.2 := fun b hb =>
            hnodup.2.2 b.2 (mem_map_of_mem hb) w.2 (.head _)
          rw [filter_append,filter_eq_self.mpr fun b hb => decide_eq_true (hne b hb)]
          simp
        rw [if_pos hlt,hsplit,orderedInsert_before hxw,take_left' (by rw [orderedInsert_length,hlenBefore])]
        exact ((hother ▸ hheap.filter _).cons x).trans (perm_orderedInsert _ x before).symm
      · have hwx : placedLe cmp w x := not_not.mp fun hn => hlt ((placedCmp_lt_iff h).mpr hn)
        have hafter : ∀ b ∈ before ++ [w], ¬ placedLe cmp x b := by
          intro b hb hxb
          have hplace := place_eq h hwx (placedLe_trans h hxb (hlast b hb))
          exact hfresh (hplace ▸ mem_map_of_mem (getElem_mem hk))
        rw [if_neg hlt,hsplit,append_cons,orderedInsert_after hafter,
          take_left' (by rw [length_append,hlenBefore]; rfl)]
        exact hheap

theorem foldl_offer_perm (hplaces : (items.map Prod.snd).Nodup) :
    (items.foldl (offer cmp bound) []).Perm ((items.mergeSort (zipIdxLE (leOf cmp))).take bound) := by
  induction items using reverseRecOn with
  | nil => simp
  | append_singleton items x ih =>
    have hperm := mergeSort_perm items (zipIdxLE (leOf cmp))
    have hall : (x::items.mergeSort (zipIdxLE (leOf cmp))).Perm (items++[x]) :=
      (hperm.cons x).trans (perm_append_singleton x items).symm
    have hplaces' := (hall.map Prod.snd).nodup_iff.mpr hplaces
    have hstep := pairwise_orderedInsert h x (pairwise_placed h items)
    have hsort : (items++[x]).mergeSort (zipIdxLE (leOf cmp)) =
        (items.mergeSort (zipIdxLE (leOf cmp))).orderedInsert (placedLe cmp) x := by
      have hsame := (mergeSort_perm (items++[x]) (zipIdxLE (leOf cmp))).trans
        (hall.symm.trans (perm_orderedInsert (placedLe cmp) x _).symm)
      refine sorted_unique h ?_ (pairwise_placed h _) hstep hsame
      exact ((mergeSort_perm _ _).map Prod.snd).nodup_iff.mpr hplaces
    rw [foldl_append,foldl_cons,foldl_nil,hsort]
    refine offer_perm h (pairwise_placed h items) hplaces' (ih ?_)
    rw [map_append] at hplaces
    exact hplaces.of_append_left

end

theorem topK_eq (h : Sorts cmp) (l : List α) : topK cmp bound l=(l.mergeSort (leOf cmp)).take bound := by
  have hplaces : (l.zipIdx.map Prod.snd).Nodup := by
    rw [zipIdx_map_snd]
    exact nodup_range'
  have hcmp : (fun a b : α × Nat => placedCmp cmp a b != .gt)=zipIdxLE (leOf cmp) := by
    funext a b
    exact h.placed a b
  have hheap : (l.zipIdx.foldl (offer cmp bound) []).Perm _ := foldl_offer_perm h hplaces
  have hsorted := (pairwise_placed h l.zipIdx).sublist (take_sublist bound _)
  rw [topK,hcmp,sorted_unique h ?_ (pairwise_placed h _) hsorted ((mergeSort_perm _ _).trans hheap),map_take]
  · exact congrArg (take bound) mergeSort_zipIdx
  · refine (((mergeSort_perm _ _).trans hheap).map Prod.snd).nodup_iff.mpr ?_
    rw [map_take]
    exact (((mergeSort_perm _ _).map Prod.snd).nodup_iff.mpr hplaces).sublist (take_sublist _ _)

theorem topK_eq_of_mem (hswap : ∀ a b, cmp b a=(cmp a b).swap) (htrans : TransOn cmp l) :
    topK cmp bound l=(l.mergeSort (leOf cmp)).take bound := by
  have hsorts : Sorts fun a b : { a // a∈l } => cmp a.1 b.1 :=
    ⟨fun a b => hswap a.1 b.1,fun a b c => htrans a.1 a.2 b.1 b.2 c.1 c.2⟩
  have hmap : topK cmp bound (l.attach.map Subtype.val) = _ := topK_map Subtype.val l.attach
  have hsort : (l.attach.mergeSort (leOf fun a b => cmp a.1 b.1)).map Subtype.val =
      (l.attach.map Subtype.val).mergeSort (leOf cmp) := map_mergeSort fun _ _ _ _ => rfl
  rwa [topK_eq hsorts,map_take,hsort,attach_map_subtype_val] at hmap

/-- Three elements that are compared in a circle: the first one alone is not the first one of two. -/
theorem topK_circle (hswap : ∀ a b, cmp b a=(cmp a b).swap) (hab : cmp a b ≠ .gt) (hbc : cmp b c ≠ .gt)
    (hca : cmp c a = .lt) : topK cmp 1 [a,b,c]=[c] ∧ topK cmp 2 [a,b,c]=[a,b] := by
  have hab' : placedCmp cmp (b,1) (a,0) = .gt := by
    rw [placedCmp,hswap a b]
    cases h : cmp a b with
    | lt | eq => rfl
    | gt => exact absurd h hab
  have hbc' : placedCmp cmp (c,2) (b,1) = .gt := by
    rw [placedCmp,hswap b c]
    cases h : cmp b c with
    | lt | eq => rfl
    | gt => exact absurd h hbc
  have hca' : placedCmp cmp (c,2) (a,0) = .lt := by
    rw [placedCmp,hca]
    rfl
  constructor
  · simp [topK,offer,greatest,hab',hca']
  · simp [topK,offer,greatest,hab',hbc',mergeSort]

end
end NamiDB.Lib
