import Mathlib.Data.List.ProdSigma
import Mathlib.Data.Multiset.Bind

/-! Hash tables that collect rows under a key, and when two ways of picking pairs pick the same ones. -/
namespace NamiDB.Lib
open List

section

variable {K α : Type*} [DecidableEq K]

abbrev Table (K α : Type*) := List (K × List α)

namespace Table

def push : Table K α → K → α → Table K α
  | [], k, a => [(k,[a])]
  | (k',as)::rest, k, a => if k'=k then (k',as++[a])::rest else (k',as)::push rest k a

def find : Table K α → K → List α
  | [], _ => []
  | (k',as)::rest, k => if k'=k then as else find rest k

theorem find_push (table : Table K α) (k : K) (a : α) (k' : K) :
    (table.push k a).find k'=if k=k' then table.find k'++[a] else table.find k' := by
  induction table with
  | nil =>
    by_cases hk : k=k' <;> simp [push,find]
  | cons e rest ih =>
    obtain ⟨l,as⟩ := e
    by_cases hl : l=k
    · subst hl
      by_cases hk : l=k' <;> simp [push,find,hk]
    · by_cases hk : l=k'
      · subst hk
        simp [push,find,hl,Ne.symm hl]
      · simp [push,find,hl,hk,ih]

def add (table : Table K α) (key : Option K) (a : α) : Table K α :=
  match key with
  | some k => table.push k a
  | none => table

def collect (key : α → Option K) (rows : List α) : Table K α :=
  rows.foldl (fun table a => table.add (key a) a) []

variable (key : α → Option K)

theorem find_foldl (rows : List α) (table : Table K α) (k : K) :
    (rows.foldl (fun table a => table.add (key a) a) table).find k =
      table.find k++rows.filter fun a => key a=some k := by
  induction rows generalizing table with
  | nil => simp
  | cons a rows ih =>
    rw [foldl_cons,ih]
    cases hk : key a with
    | none => simp [add,hk]
    | some k' =>
      by_cases h : k'=k
      · subst h
        simp [add,find_push,hk]
      · simp [add,find_push,hk,h]

theorem find_collect (rows : List α) (k : K) : (collect key rows).find k=rows.filter fun a => key a=some k := by
  rw [collect,find_foldl]
  rfl

end Table
end

section

variable {ρ : Type*} {s : List ι}

theorem of_countP_eq (himp : ∀ a ∈ s, p a=true → q a=true) (h : s.countP p=s.countP q) (ha : a∈s) (hq : q a=true) :
    p a=true := by
  have hp : (s.filter q).filter p=s.filter p := by
    rw [filter_filter]
    exact filter_congr fun b hb => Bool.and_eq_left_iff_imp.mpr (himp b hb)
  have hall : (s.filter q).filter p=s.filter q := by
    refine filter_sublist.eq_of_length ?_
    rw [hp,← countP_eq_length_filter,← countP_eq_length_filter,h]
  have hmem : a∈s.filter q := mem_filter.mpr ⟨ha,hq⟩
  rw [← hall] at hmem
  exact (mem_filter.mp hmem).2

/-- Picking by the result and picking by the pair give the same results only when they pick the same pairs:
all pairs with one result are picked alike, so that a result missing here cannot be made up for there. -/
theorem picks_perm_iff {f : ρ → Bool} :
    ((s.filter g).map c).Perm ((s.filter fun a => f (c a)).map c) ↔ ∀ a ∈ s, g a=f (c a) := by
  constructor
  · intro h
    have hlen : s.countP g=s.countP fun a => f (c a) := by
      simpa [countP_eq_length_filter] using h.length_eq
    have hf : s.countP (fun a => f (c a)&&g a)=s.countP fun a => f (c a) := by
      have := h.countP_eq f
      rw [countP_map,countP_map,countP_filter,countP_filter] at this
      rw [show (fun a => f (c a)&&g a)=fun a => (f ∘ c) a&&g a from rfl,this]
      congr 1
      simp
    have hfg : ∀ a ∈ s, f (c a)=true → g a=true := by
      intro a ha hfa
      have := of_countP_eq (fun x _ hx => (Bool.and_eq_true_iff.mp hx).1) hf ha hfa
      exact (Bool.and_eq_true_iff.mp this).2
    intro a ha
    cases hg : g a with
    | true => exact (of_countP_eq hfg hlen.symm ha hg).symm
    | false =>
      cases hfa : f (c a) with
      | true => rw [hfg a ha hfa] at hg; cases hg
      | false => rfl
  · intro h
    rw [filter_congr h]

theorem flatMap_perm_swap (l : List α) (r : List β) (f : α → β → List ρ) :
    (r.flatMap fun b => l.flatMap fun a => f a b).Perm (l.flatMap fun a => r.flatMap fun b => f a b) := by
  simpa using Multiset.bind_bind (r : Multiset β) (l : Multiset α) (f := fun b a => (f a b : Multiset ρ))

theorem map_filter_eq_flatMap (s : List ι) (g : ι → Bool) (c : ι → ρ) :
    (s.filter g).map c=s.flatMap fun a => if g a then [c a] else [] := by
  induction s with
  | nil => rfl
  | cons a s ih => cases hg : g a <;> simp [hg,ih]

theorem filter_map_filter_eq_flatMap (s : List ι) (g : ι → Bool) (c : ι → ρ) (f : ρ → Bool) :
    ((s.filter g).map c).filter f=s.flatMap fun a => if g a&&f (c a) then [c a] else [] := by
  rw [filter_map,filter_filter,map_filter_eq_flatMap]
  simp [Bool.and_comm]

variable {α : Type*} (c : α → β → ρ)

theorem picks_eq_lookup (g : α → β → Bool) (f : ρ → Bool) (l : List α) (r : List β) :
    ((l ×ˢ r).filter fun p => g p.1 p.2&&f (c p.1 p.2)).map (fun p => c p.1 p.2) =
      l.flatMap fun a => ((r.filter fun b => g a b).map fun b => c a b).filter f := by
  simp only [filter_map_filter_eq_flatMap]
  simp only [map_filter_eq_flatMap,SProd.sprod,product,flatMap_assoc,flatMap_map]

theorem picks_perm_lookup (g : α → β → Bool) (f : ρ → Bool) (l : List α) (r : List β) :
    (((l ×ˢ r).filter fun p => g p.1 p.2&&f (c p.1 p.2)).map fun p => c p.1 p.2).Perm
      (r.flatMap fun b => ((l.filter fun a => g a b).map fun a => c a b).filter f) := by
  rw [picks_eq_lookup]
  simp only [filter_map_filter_eq_flatMap]
  exact (flatMap_perm_swap l r _).symm

end
end NamiDB.Lib
