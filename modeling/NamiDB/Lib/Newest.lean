import Mathlib.Data.List.Sort
import Mathlib.Order.Lattice

/-! Stamped versions of keyed values. A reader takes the version with the highest stamp; a merge
keeps that version of each key, and may forget it where it only says that the key is deleted. -/
namespace NamiDB.Lib
open List Option

section

variable {ρ κ : Type*} (key : ρ → κ) (stamp : ρ → ℕ)

/-- `r` is a version of `k` among `rows` and no version is newer. -/
structure IsNewest (rows : List ρ) (k : κ) (r : ρ) : Prop where
  mem : r∈rows
  key_eq : key r=k
  stamp_le : ∀ x ∈ rows, key x=k → stamp x ≤ stamp r

def Distinct (rows : List ρ) : Prop :=
  ∀ a ∈ rows, ∀ b ∈ rows, key a=key b → stamp a=stamp b → a=b

/-- A reader replaces what it has found only by something strictly newer. -/
def pick (best : Option ρ) (r : ρ) : Option ρ :=
  match best with
  | none => some r
  | some b => if stamp b<stamp r then some r else some b

def newest [DecidableEq κ] (k : κ) (rows : List ρ) : Option ρ :=
  (rows.filter fun r => key r=k).foldl (pick stamp) none

variable {key stamp}
variable {rows : List ρ} {rows' : List ρ} {k : κ} {r : ρ}

theorem Distinct.mono (h : Distinct key stamp rows) (hs : rows' ⊆ rows) : Distinct key stamp rows' :=
  fun a ha b hb => h a (hs ha) b (hs hb)

theorem IsNewest.mono (h : IsNewest key stamp rows k r)
    (hs : rows' ⊆ rows) (hr : r∈rows') : IsNewest key stamp rows' k r :=
  ⟨hr,h.key_eq,fun x hx => h.stamp_le x (hs hx)⟩

theorem IsNewest.unique (hd : Distinct key stamp rows) (h : IsNewest key stamp rows k r)
    (h' : IsNewest key stamp rows k r') : r=r' :=
  hd r h.mem r' h'.mem (h.key_eq.trans h'.key_eq.symm)
    (le_antisymm (h'.stamp_le r h.mem h.key_eq) (h.stamp_le r' h'.mem h'.key_eq))

variable (stamp) in
theorem foldl_pick_some (l : List ρ) (b : ρ) :
    ∃ r, l.foldl (pick stamp) (some b)=some r ∧ r∈b::l ∧ ∀ x ∈ b :: l, stamp x ≤ stamp r := by
  induction l generalizing b with
  | nil => exact ⟨b,rfl,by simp,by simp⟩
  | cons a l ih =>
    simp only [foldl_cons,pick]
    split
    · rename_i hlt
      obtain ⟨r,hr,hmem,hmax⟩ := ih a
      have hbr : stamp b ≤ stamp r := hlt.le.trans (hmax a (by simp))
      exact ⟨r,hr,by simp only [mem_cons] at hmem ⊢; tauto,by simpa [hbr] using hmax⟩
    · rename_i hge
      obtain ⟨r,hr,hmem,hmax⟩ := ih b
      have har : stamp a ≤ stamp r := (not_lt.mp hge).trans (hmax b (by simp))
      refine ⟨r,hr,by simp only [mem_cons] at hmem ⊢; tauto,?_⟩
      simp only [mem_cons,forall_eq_or_imp] at hmax ⊢
      exact ⟨hmax.1,har,hmax.2⟩

variable [DecidableEq κ]

theorem newest_eq_none : newest key stamp k rows=none ↔ ∀ r ∈ rows, key r≠k := by
  unfold newest
  cases hl : rows.filter fun r => key r=k with
  | nil =>
    simpa using hl
  | cons b l =>
    obtain ⟨r,hr,-⟩ := foldl_pick_some stamp l b
    have hb : b∈rows.filter fun r => key r=k := hl ▸ mem_cons_self
    rw [mem_filter,decide_eq_true_eq] at hb
    simp only [foldl_cons,pick,hr,reduceCtorEq,false_iff,not_forall,not_not]
    exact ⟨b,hb.1,hb.2⟩

theorem isNewest_of_newest (h : newest key stamp k rows=some r) : IsNewest key stamp rows k r := by
  unfold newest at h
  cases hl : rows.filter fun r => key r=k with
  | nil => simp [hl] at h
  | cons b l =>
    obtain ⟨r',hr,hmem,hmax⟩ := foldl_pick_some stamp l b
    simp only [hl,foldl_cons,pick,hr,some.injEq] at h
    subst h
    rw [← hl] at hmem hmax
    simp only [mem_filter,decide_eq_true_eq] at hmem hmax
    exact ⟨hmem.1,hmem.2,fun x hx hk => hmax x ⟨hx,hk⟩⟩

theorem newest_eq_some (hd : Distinct key stamp rows) :
    newest key stamp k rows=some r ↔ IsNewest key stamp rows k r := by
  refine ⟨isNewest_of_newest,fun h => ?_⟩
  cases hn : newest key stamp k rows with
  | none => exact absurd h.key_eq (newest_eq_none.mp hn r h.mem)
  | some r' => rw [(isNewest_of_newest hn).unique hd h]

theorem foldl_pick_of_le {l : List ρ} (h : ∀ r ∈ l, stamp r ≤ stamp b) :
    l.foldl (pick stamp) (some b)=some b := by
  induction l with
  | nil => rfl
  | cons a l ih =>
    rw [foldl_cons,pick,if_neg (not_lt.mpr (h a (.head _)))]
    exact ih fun r hr => h r (.tail _ hr)

theorem foldl_pick_eq_newest {l : List ρ} (hd : Distinct key stamp rows) (h : ∀ r, r∈l ↔ r∈rows ∧ key r=k) :
    l.foldl (pick stamp) none=newest key stamp k rows := by
  have hl : l.foldl (pick stamp) none=newest key stamp k l := by
    rw [newest,filter_eq_self.mpr fun r hr => decide_eq_true ((h r).mp hr).2]
  rw [hl]
  cases hn : newest key stamp k rows with
  | none => exact newest_eq_none.mpr fun r hr => newest_eq_none.mp hn r ((h r).mp hr).1
  | some r =>
    have hr := isNewest_of_newest hn
    exact (newest_eq_some (hd.mono fun x hx => ((h x).mp hx).1)).mpr
      (hr.mono (fun x hx => ((h x).mp hx).1) ((h r).mpr ⟨hr.mem,hr.key_eq⟩))

end

section

variable {ρ κ : Type*} (key : ρ → κ) (stamp : ρ → ℕ) (dead : ρ → Bool)

/-- What a reader sees of `k`: its newest version, unless that one says it is deleted. -/
def live [DecidableEq κ] (k : κ) (rows : List ρ) : Option ρ :=
  (newest key stamp k rows).filter fun r => !dead r

/-- `out` holds the newest version of each key of `ins`; deletions are dropped when `gc`. -/
def Compacts (gc : Bool) (ins out : List ρ) : Prop :=
  ∀ r, r∈out ↔ IsNewest key stamp ins (key r) r ∧ ¬(gc=true ∧ dead r=true)

variable {key stamp dead} {gc : Bool}

theorem Compacts.subset (h : Compacts key stamp dead gc ins out) : out ⊆ ins :=
  fun r hr => ((h r).mp hr).1.mem

variable [DecidableEq κ]

theorem live_congr (hd : Distinct key stamp rows) (h : ∀ r, r∈rows ↔ r∈rows') :
    live key stamp dead k rows=live key stamp dead k rows' := by
  unfold live
  cases hn : newest key stamp k rows' with
  | none =>
    rw [newest_eq_none] at hn
    rw [newest_eq_none.mpr fun r hr => hn r ((h r).mp hr)]
  | some r =>
    have hr := isNewest_of_newest hn
    rw [(newest_eq_some hd).mpr (hr.mono (fun x hx => (h x).mp hx) ((h r).mpr hr.mem))]

/-- A merge changes nothing a reader sees next to `rest`, provided that where it drops deletions
all versions outside it are newer than the ones it merges. -/
theorem Compacts.live_eq (h : Compacts key stamp dead gc ins out) (hd : Distinct key stamp (ins++rest))
    (hgc : gc=true → ∀ x ∈ rest, ∀ y ∈ ins, key x=key y → stamp y<stamp x) (k : κ) :
    live key stamp dead k (out++rest)=live key stamp dead k (ins++rest) := by
  have hsub : out++rest ⊆ ins++rest := append_subset.mpr
    ⟨fun r hr => mem_append_left _ (h.subset hr),subset_append_right _ _⟩
  have hd' := hd.mono hsub
  cases hn : newest key stamp k (ins++rest) with
  | none =>
    have hnone : newest key stamp k (out++rest)=none :=
      newest_eq_none.mpr fun r hr => newest_eq_none.mp hn r (hsub hr)
    simp [live,hn,hnone]
  | some r =>
    have hr := isNewest_of_newest hn
    by_cases hkept : r∈out++rest
    · -- the version a reader takes survives, so it is still the newest
      have hsome := (newest_eq_some hd').mpr (hr.mono hsub hkept)
      simp [live,hn,hsome]
    · -- otherwise the merge dropped it: it is a deletion, and nothing of `k` is left
      simp only [mem_append,not_or] at hkept
      have hin : r∈ins := (mem_append.mp hr.mem).resolve_right hkept.2
      have hnew : IsNewest key stamp ins (key r) r := by
        have := hr.mono (subset_append_left ins rest) hin
        rwa [← hr.key_eq] at this
      have hdrop : gc=true ∧ dead r=true := by
        by_contra hno
        exact hkept.1 ((h r).mpr ⟨hnew,hno⟩)
      have hnone : newest key stamp k (out++rest)=none := by
        refine newest_eq_none.mpr fun x hx hk => ?_
        rcases mem_append.mp hx with hx | hx
        · have hxn := ((h x).mp hx).1
          rw [hk,← hr.key_eq] at hxn
          have := hxn.unique (hd.mono (subset_append_left _ _)) hnew
          exact hkept.1 (this ▸ hx)
        · have hlt := hgc hdrop.1 x hx r hin (hk.trans hr.key_eq.symm)
          exact absurd (hr.stamp_le x (mem_append_right _ hx) hk) (not_le.mpr hlt)
      rw [live,live,hn,hnone,filter_some_neg (by simp [hdrop.2])]
      rfl

end

section

variable {ρ κ : Type*} [LinearOrder κ] (key : ρ → κ) (stamp : ρ → ℕ)

/-- The order in which a heap over sorted sources yields their rows: by key, newest first. -/
def MergeOrder (a b : ρ) : Prop := key a<key b ∨ key a=key b ∧ stamp b ≤ stamp a

instance : DecidableRel (MergeOrder key stamp) := fun _ _ => inferInstanceAs (Decidable (_ ∨ _))

instance : Std.Total (MergeOrder key stamp) where
  total a b := by
    unfold MergeOrder
    rcases lt_trichotomy (key a) (key b) with h | h | h
    · exact .inl (.inl h)
    · rcases le_total (stamp b) (stamp a) with h' | h'
      · exact .inl (.inr ⟨h,h'⟩)
      · exact .inr (.inr ⟨h.symm,h'⟩)
    · exact .inr (.inl h)

instance : IsTrans ρ (MergeOrder key stamp) where
  trans a b c := by
    rintro (hab | ⟨hab,hs⟩) (hbc | ⟨hbc,hs'⟩)
    · exact .inl (hab.trans hbc)
    · exact .inl (hbc ▸ hab)
    · exact .inl (hab ▸ hbc)
    · exact .inr ⟨hab.trans hbc,hs'.trans hs⟩

/-- The first row of each run of equal keys. -/
def winners (last : Option κ) : List ρ → List ρ
  | [] => []
  | r::rest =>
    if last=some (key r) then winners last rest else r::winners (some (key r)) rest

/-- The newest row of each key of the sources, in key order. -/
def mergeNewest (sources : List (List ρ)) : List ρ :=
  winners key none (sources.flatten.insertionSort (MergeOrder key stamp))

variable {key stamp}
variable {sources : List (List ρ)} {a b : ρ}

theorem MergeOrder.key_le (h : MergeOrder key stamp a b) : key a≤key b :=
  h.elim le_of_lt fun h => h.1.le

theorem mem_winners (hs : l.Pairwise (MergeOrder key stamp)) (last : Option κ)
    (hlast : ∀ k, last=some k → ∀ x ∈ l, k≤key x) (r : ρ) :
    r∈winners key last l ↔ last≠some (key r) ∧ l.find? (fun x => key x=key r)=some r := by
  induction l generalizing last with
  | nil => simp [winners]
  | cons a l ih =>
    have ha := (pairwise_cons.mp hs).1
    have ih := ih (pairwise_cons.mp hs).2
    unfold winners
    by_cases hl : last=some (key a)
    · rw [if_pos hl,ih last fun k hk x hx => hlast k hk x (mem_cons_of_mem a hx)]
      by_cases hka : key a=key r
      · simp [hl,hka]
      · simp [hka]
    · rw [if_neg hl,mem_cons,ih (some (key a)) fun k hk x hx => some.inj hk ▸ (ha x hx).key_le]
      by_cases hka : key a=key r
      · rw [hka] at hl
        simp [hka,hl,eq_comm]
      · have hne : r≠a := fun h => hka (h ▸ rfl)
        simp only [hne,hka,false_or,ne_eq,some.injEq,not_false_eq_true,true_and,
          decide_false,find?_cons_of_neg,Bool.false_eq_true]
        refine ⟨fun h => ⟨fun hk => hka ?_,h⟩,fun h => h.2⟩
        have hr : r∈l := mem_of_find?_eq_some h
        exact le_antisymm (ha r hr).key_le (hlast _ hk a (.head _))

theorem mem_mergeNewest (h : r∈mergeNewest key stamp sources) : IsNewest key stamp sources.flatten (key r) r := by
  have hs := pairwise_insertionSort (MergeOrder key stamp) sources.flatten
  have hp := perm_insertionSort (MergeOrder key stamp) sources.flatten
  obtain ⟨-,hf⟩ := (mem_winners hs none (by simp) r).mp h
  obtain ⟨-,before,after,heq,hbefore⟩ := find?_eq_some_iff_append.mp hf
  refine ⟨hp.mem_iff.mp (mem_of_find?_eq_some hf),rfl,fun x hx hk => ?_⟩
  rw [← hp.mem_iff,heq,mem_append,mem_cons] at hx
  rcases hx with hx | rfl | hx
  · exact absurd hk (by simpa using hbefore x hx)
  · exact le_rfl
  · rw [heq] at hs
    have hrx := (pairwise_cons.mp (pairwise_append.mp hs).2.1).1 x hx
    rcases hrx with hlt | ⟨-,hle⟩
    · exact absurd hk hlt.ne'
    · exact hle

theorem mergeNewest_unique (ha : a∈mergeNewest key stamp sources) (hb : b∈mergeNewest key stamp sources)
    (hk : key a=key b) : a=b := by
  have hs := pairwise_insertionSort (MergeOrder key stamp) sources.flatten
  have hfa := ((mem_winners hs none (by simp) a).mp ha).2
  have hfb := ((mem_winners hs none (by simp) b).mp hb).2
  rw [hk,hfb] at hfa
  exact (some.inj hfa).symm

variable (key stamp) in
theorem mergeNewest_complete (hx : x∈sources.flatten) : ∃ r ∈ mergeNewest key stamp sources, key r=key x := by
  have hs := pairwise_insertionSort (MergeOrder key stamp) sources.flatten
  have hp := perm_insertionSort (MergeOrder key stamp) sources.flatten
  cases hf : (sources.flatten.insertionSort (MergeOrder key stamp)).find?
      (fun y => key y=key x) with
  | none => exact absurd (decide_eq_true rfl) (find?_eq_none.mp hf x (hp.mem_iff.mpr hx))
  | some r =>
    have hk : key r=key x := by simpa using find?_some hf
    exact ⟨r,(mem_winners hs none (by simp) r).mpr ⟨by simp,hk ▸ hf⟩,hk⟩

theorem compacts_mergeNewest (dead : ρ → Bool) (gc : Bool) (hd : Distinct key stamp sources.flatten) :
    Compacts key stamp dead gc sources.flatten ((mergeNewest key stamp sources).filter fun r => !(gc&&dead r)) := by
  intro r
  simp only [mem_filter,Bool.not_eq_true',Bool.and_eq_false_iff]
  refine ⟨fun ⟨hr,hg⟩ => ⟨mem_mergeNewest hr,fun hno => ?_⟩,fun ⟨hr,hg⟩ => ⟨?_,?_⟩⟩
  · simp [hno.1,hno.2] at hg
  · obtain ⟨r',hr',hk⟩ := mergeNewest_complete key stamp hr.mem
    have hn := mem_mergeNewest hr'
    rw [hk] at hn
    exact hr.unique hd hn ▸ hr'
  · by_contra hno
    simp only [not_or,Bool.not_eq_false] at hno
    exact hg hno

end
end NamiDB.Lib
