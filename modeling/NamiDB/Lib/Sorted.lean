import Mathlib.Data.List.Basic
import Mathlib.Data.Prod.Lex
import Mathlib.Order.Defs.LinearOrder

/-! Lists sorted by a key, the binary search of the front on which a predicate holds, and grouping by a key. -/
namespace NamiDB.Sorted
open List
variable {α κ : Type*}

section
variable [LinearOrder κ]

def sortByKey (key : α → κ) (xs : List α) : List α := xs.mergeSort fun a b => key a≤key b

variable (key : α → κ)

theorem sortByKey_perm (xs : List α) : (sortByKey key xs).Perm xs := mergeSort_perm _ _

theorem sortByKey_sorted (xs : List α) : (sortByKey key xs).Pairwise fun a b => key a≤key b := by
  refine (pairwise_mergeSort ?_ ?_ xs).imp fun h => by simpa using h
  · intro a b c hab hbc
    simp only [decide_eq_true_eq] at *
    exact hab.trans hbc
  · intro a b
    simpa using le_total (key a) (key b)

/-- What holds from each element to the next holds further on when the list is sorted by a compatible order. -/
theorem pairwise_of_chain (h : ∀ {a b c}, R a b → S b c → R a c) {xs : List α} (hchain : xs.IsChain R)
    (hsorted : xs.Pairwise S) : xs.Pairwise R := by
  induction hchain with
  | nil => exact .nil
  | singleton a => exact pairwise_singleton _ _
  | cons_cons hab _ ih =>
    obtain ⟨-,hsorted⟩ := pairwise_cons.mp hsorted
    refine pairwise_cons.mpr ⟨fun c hc => ?_,ih hsorted⟩
    rcases mem_cons.mp hc with rfl | hc
    · exact hab
    · exact h hab ((pairwise_cons.mp hsorted).1 c hc)

end

section
variable {p : α → Bool} {xs : List α} {lo hi : Nat}

/-- The binary search between `lo` and `hi` for the first element on which `p` fails. -/
def search (p : α → Bool) (xs : List α) (lo hi : Nat) : Nat :=
  if lo<hi then
    if (xs[lo+(hi-lo)/2]?).any p then search p xs (lo+(hi-lo)/2+1) hi
    else search p xs lo (lo+(hi-lo)/2)
  else lo
termination_by hi-lo

theorem search_le (h : lo≤hi) : search p xs lo hi≤hi := by
  fun_induction search p xs lo hi with
  | case1 lo hi hlt hp ih => exact ih (by omega)
  | case2 lo hi hlt hp ih => exact (ih (by omega)).trans (by omega)
  | case3 lo hi hlt => exact h

theorem search_spec (h : xs.Pairwise fun a b => p b → p a) (hle : lo≤hi) (hhi : hi≤xs.length)
    (hfront : ∀ a ∈ xs.take lo, p a) (hback : ∀ a ∈ xs.drop hi, ¬ p a) :
    (∀ a ∈ xs.take (search p xs lo hi), p a) ∧ ∀ a ∈ xs.drop (search p xs lo hi), ¬ p a := by
  fun_induction search p xs lo hi with
  | case1 lo hi hlt hp ih =>
    have hmid : lo+(hi-lo)/2<xs.length := by omega
    rw [getElem?_eq_getElem hmid,Option.any_some] at hp
    refine ih (by omega) hhi (fun a ha => ?_) hback
    rw [take_succ_eq_append_getElem hmid,mem_append,mem_singleton] at ha
    rw [← take_append_drop (lo+(hi-lo)/2) xs,drop_eq_getElem_cons hmid] at h
    rcases ha with ha | rfl
    · exact (pairwise_append.mp h).2.2 a ha _ (.head _) hp
    · exact hp
  | case2 lo hi hlt hp ih =>
    have hmid : lo+(hi-lo)/2<xs.length := by omega
    rw [getElem?_eq_getElem hmid,Option.any_some] at hp
    refine ih (by omega) (by omega) hfront fun a ha hpa => hp ?_
    rw [drop_eq_getElem_cons hmid] at ha
    rcases mem_cons.mp ha with rfl | ha
    · exact hpa
    · rw [← take_append_drop (lo+(hi-lo)/2) xs,drop_eq_getElem_cons hmid] at h
      exact (pairwise_cons.mp (pairwise_append.mp h).2.1).1 a ha hpa
  | case3 lo hi hlt =>
    obtain rfl : lo=hi := by omega
    exact ⟨hfront,hback⟩

theorem take_search (h : xs.Pairwise fun a b => p b → p a) : xs.take (search p xs 0 xs.length)=xs.filter p := by
  obtain ⟨hfront,hback⟩ := search_spec h (Nat.zero_le _) le_rfl (by simp) (by simp)
  generalize search p xs 0 xs.length=k at hfront hback
  calc xs.take k=(xs.take k).filter p++(xs.drop k).filter p := by
        rw [filter_eq_self.mpr hfront,filter_eq_nil_iff.mpr hback,append_nil]
    _ = xs.filter p := by rw [← filter_append,take_append_drop]

end

section
variable [DecidableEq κ] {key : α → κ}

def pushInto (k : κ) (x : α) : List (κ × List α) → List (κ × List α)
  | [] => [(k,[x])]
  | g::groups => if g.1=k then (k,g.2++[x])::groups else g::pushInto k x groups

/-- The elements of a list under their keys, each group in the order of the list. -/
def groups (key : α → κ) (xs : List α) : List (κ × List α) := xs.foldl (fun m x => pushInto (key x) x m) []

section
variable [BEq κ] [LawfulBEq κ]

theorem lookup_pushInto (k k' : κ) (x : α) (m : List (κ × List α)) :
    ((pushInto k x m).lookup k').getD []=(m.lookup k').getD []++if k'=k then [x] else [] := by
  induction m with
  | nil =>
    by_cases h : k'=k
    · simp [pushInto,h]
    · simp [pushInto,lookup_cons,h,beq_false_of_ne h]
  | cons g m ih =>
    obtain ⟨k0,xs⟩ := g
    rw [pushInto]
    split
    · next hg =>
      cases hg
      by_cases h : k'=k0
      · simp [h]
      · simp [lookup_cons,h,beq_false_of_ne h]
    · next hg =>
      by_cases h : k'=k0
      · simp [h,hg]
      · simpa [lookup_cons,beq_false_of_ne h] using ih

theorem lookup_groups (xs : List α) (k : κ) : ((groups key xs).lookup k).getD []=xs.filter (key ·=k) := by
  have hfold : ∀ m : List (κ × List α), ((xs.foldl (fun m x => pushInto (key x) x m) m).lookup k).getD [] =
      (m.lookup k).getD []++xs.filter (key ·=k) := by
    induction xs with
    | nil => simp
    | cons x xs ih =>
      intro m
      rw [foldl_cons,ih,lookup_pushInto,append_assoc,filter_cons]
      by_cases h : key x=k
      · simp [h]
      · simp [h,Ne.symm h]
  simpa [groups] using hfold []

theorem lookup_map_snd (f : β → γ) (m : List (κ × β)) (k : κ) :
    (m.map fun g => (g.1,f g.2)).lookup k=(m.lookup k).map f := by
  induction m with
  | nil => rfl
  | cons g m ih =>
    obtain ⟨k0,b⟩ := g
    by_cases h : k=k0
    · simp [h]
    · simpa [lookup_cons,beq_false_of_ne h] using ih

end

theorem pushInto_perm (k : κ) (x : α) (m : List (κ × List α)) :
    ((pushInto k x m).flatMap (·.2)).Perm (x::m.flatMap (·.2)) := by
  induction m with
  | nil => simp [pushInto]
  | cons g m ih =>
    rw [pushInto]
    split
    · simp
    · exact (ih.append_left g.2).trans perm_middle

theorem groups_perm (xs : List α) : ((groups key xs).flatMap (·.2)).Perm xs := by
  have hfold : ∀ m : List (κ × List α), ((xs.foldl (fun m x => pushInto (key x) x m) m).flatMap (·.2)).Perm
      (xs++m.flatMap (·.2)) := by
    induction xs with
    | nil => simp
    | cons x xs ih =>
      intro m
      exact (ih _).trans (((pushInto_perm _ x m).append_left xs).trans perm_middle)
  simpa [groups] using hfold []

end
end NamiDB.Sorted
