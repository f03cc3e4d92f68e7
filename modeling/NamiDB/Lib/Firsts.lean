import NamiDB.Lib.TopK

/-! The first element with each key. Where elements of one key do not differ in a stable sort, it does not matter
which comes first, the sort or the choice. -/
namespace NamiDB.Lib
open List

section

variable {α κ : Type*} [DecidableEq κ] (f : α → κ)

/-- Without the elements whose key has been seen. -/
def firsts : List κ → List α → List α
  | _, [] => []
  | seen, a::as => if f a∈seen then firsts seen as else a::firsts (f a::seen) as

variable {f} {seen seen' : List κ} {as : List α} {a : α}

theorem firsts_sublist (seen : List κ) (as : List α) : (firsts f seen as).Sublist as := by
  induction as generalizing seen with
  | nil => exact .slnil
  | cons a as ih =>
    rw [firsts]
    split
    · exact (ih seen).cons a
    · exact (ih _).cons_cons a

theorem exists_mem_firsts (ha : a∈as) (hseen : f a∉seen) : ∃ b ∈ firsts f seen as, f b=f a := by
  induction as generalizing seen with
  | nil => cases ha
  | cons c as ih =>
    rw [firsts]
    by_cases hc : f c=f a
    · rw [if_neg (hc ▸ hseen)]
      exact ⟨c,.head _,hc⟩
    · have ha' : a∈as := (mem_cons.mp ha).resolve_left fun h => hc (h ▸ rfl)
      split
      · exact ih ha' hseen
      · have hseen' : f a∉f c::seen := fun hmem => (mem_cons.mp hmem).elim (fun h => hc h.symm) hseen
        obtain ⟨b,hb,heq⟩ := ih ha' hseen'
        exact ⟨b,.tail _ hb,heq⟩

theorem mem_firsts (h : a∈firsts f seen as) : f a∉seen := by
  induction as generalizing seen with
  | nil => cases h
  | cons c as ih =>
    rw [firsts] at h
    split at h
    · exact ih h
    · rename_i hc
      rcases mem_cons.mp h with rfl | h
      · exact hc
      · exact fun hseen => ih h (.tail _ hseen)

theorem nodup_firsts (seen : List κ) (as : List α) : ((firsts f seen as).map f).Nodup := by
  induction as generalizing seen with
  | nil => exact nodup_nil
  | cons a as ih =>
    rw [firsts]
    split
    · exact ih seen
    · refine nodup_cons.mpr ⟨fun hmem => ?_,ih _⟩
      obtain ⟨b,hb,heq⟩ := mem_map.mp hmem
      exact mem_firsts hb (heq ▸ mem_cons_self)

theorem filter_key_eq (h : (as.map f).Nodup) (ha : a∈as) (hk : f a=k) : (as.filter fun b => f b=k)=[a] := by
  induction as with
  | nil => cases ha
  | cons c as ih =>
    obtain ⟨hc,has⟩ := nodup_cons.mp h
    rcases mem_cons.mp ha with rfl | ha
    · rw [filter_cons_of_pos (by simpa using hk),cons.injEq]
      refine ⟨rfl,filter_eq_nil_iff.mpr fun b hb hbk => hc ?_⟩
      rw [hk,← of_decide_eq_true hbk]
      exact mem_map_of_mem hb
    · have hck : f c≠k := by
        rintro rfl
        exact hc (hk ▸ mem_map_of_mem ha)
      rw [filter_cons_of_neg (by simpa using hck),ih has ha]

theorem firsts_congr (h : ∀ a ∈ as, f a∈seen ↔ f a∈seen') : firsts f seen as=firsts f seen' as := by
  induction as generalizing seen seen' with
  | nil => rfl
  | cons a as ih =>
    obtain ⟨ha,has⟩ := forall_mem_cons.mp h
    rw [firsts,firsts,ih has]
    split
    · rename_i hseen
      rw [if_pos (ha.mp hseen)]
    · rename_i hseen
      rw [if_neg fun h => hseen (ha.mpr h),ih fun b hb => ?_]
      rw [mem_cons,mem_cons,has b hb]

theorem firsts_congr_key {g : α → κ} (h : ∀ a ∈ as, f a=g a) : firsts f seen as=firsts g seen as := by
  induction as generalizing seen with
  | nil => rfl
  | cons a as ih =>
    obtain ⟨ha,has⟩ := forall_mem_cons.mp h
    rw [firsts,firsts,ha,ih has,ih has]

theorem firsts_append (seen : List κ) (as bs : List α) :
    firsts f seen (as++bs)=firsts f seen as++firsts f (as.map f++seen) bs := by
  induction as generalizing seen with
  | nil => rfl
  | cons a as ih =>
    rw [cons_append,firsts,firsts]
    split
    · rename_i hseen
      have hsame : firsts f (as.map f++seen) bs=firsts f ((a::as).map f++seen) bs := by
        refine firsts_congr fun b _ => ?_
        rw [map_cons,cons_append,mem_cons]
        exact ⟨.inr,fun h => h.elim (fun heq => mem_append_right _ (heq ▸ hseen)) id⟩
      rw [ih,hsame]
    · have hsame : firsts f (as.map f++f a::seen) bs=firsts f ((a::as).map f++seen) bs := by
        refine firsts_congr fun b _ => ?_
        rw [map_cons,cons_append,mem_append,mem_cons,mem_cons,mem_append]
        tauto
      rw [ih,cons_append,hsame]

theorem firsts_skip (ha : f a∈seen) (as bs : List α) : firsts f seen (as++a::bs)=firsts f seen (as++bs) := by
  rw [firsts_append,firsts_append,firsts,if_pos (mem_append_right _ ha)]

theorem map_firsts (seen : List κ) (bs : List β) : firsts f seen (bs.map g)=(firsts (f ∘ g) seen bs).map g := by
  induction bs generalizing seen with
  | nil => rfl
  | cons b bs ih =>
    rw [map_cons,firsts,firsts]
    simp only [Function.comp_apply]
    split
    · exact ih seen
    · rw [map_cons,ih]

theorem firsts_filter (p : κ → Bool) (seen : List κ) (as : List α) :
    firsts f seen (as.filter fun a => p (f a))=(firsts f seen as).filter fun a => p (f a) := by
  induction as generalizing seen with
  | nil => rfl
  | cons a as ih =>
    rw [filter_cons,firsts]
    split
    · rename_i hp
      rw [firsts]
      split
      · exact ih seen
      · rw [filter_cons,if_pos hp,ih]
    · rename_i hp
      split
      · exact ih seen
      · -- a key that is not kept does not matter
        rw [filter_cons,if_neg hp,← ih]
        refine firsts_congr fun b hb => ?_
        rw [mem_cons]
        exact ⟨.inr,fun h => h.resolve_left fun heq => hp (heq ▸ (mem_filter.mp hb).2)⟩

/-- A choice by a finer key comes first. -/
theorem firsts_firsts {κ' : Type*} [DecidableEq κ'] {g : α → κ'} {seen' : List κ'}
    (hseen : ∀ a ∈ as, g a∈seen' → f a∈seen) (hfiner : ∀ a ∈ as, ∀ b ∈ as, g a=g b → f a=f b) :
    firsts f seen (firsts g seen' as)=firsts f seen as := by
  induction as generalizing seen seen' with
  | nil => rfl
  | cons a as ih =>
    obtain ⟨hfirst,hrest⟩ := forall_mem_cons.mp hseen
    have hfiner' : ∀ b ∈ as, ∀ c ∈ as, g b=g c → f b=f c := fun b hb c hc => hfiner b (.tail _ hb) c (.tail _ hc)
    have hsame : ∀ b ∈ as, g b=g a → f b=f a := fun b hb => hfiner b (.tail _ hb) a (.head _)
    rw [firsts]
    split
    · rename_i hold
      rw [firsts,if_pos (hfirst hold),ih hrest hfiner']
    · rw [firsts,firsts]
      split
      · rename_i hold
        refine ih (fun b hb hmem => ?_) hfiner'
        exact (mem_cons.mp hmem).elim (fun heq => hsame b hb heq ▸ hold) (hrest b hb)
      · refine congrArg (a::·) (ih (fun b hb hmem => ?_) hfiner')
        exact (mem_cons.mp hmem).elim (fun heq => hsame b hb heq ▸ mem_cons_self) fun h => .tail _ (hrest b hb h)

theorem firsts_eq_nil (h : ∀ a ∈ as, f a∈seen) : firsts f seen as=[] := by
  induction as with
  | nil => rfl
  | cons a as ih =>
    obtain ⟨ha,has⟩ := forall_mem_cons.mp h
    rw [firsts,if_pos ha,ih has]

theorem mem_map_firsts_append : k∈(firsts f seen as).map f++seen ↔ k∈as.map f++seen := by
  simp only [mem_append,mem_map]
  constructor
  · rintro (⟨a,ha,rfl⟩ | hk)
    · exact .inl ⟨a,(firsts_sublist seen as).subset ha,rfl⟩
    · exact .inr hk
  · rintro (⟨a,ha,rfl⟩ | hk)
    · exact or_iff_not_imp_right.mpr fun hseen => exists_mem_firsts ha hseen
    · exact .inr hk

/-- What only the first elements say is said by them. -/
theorem firsts_flatMap {κ' : Type*} [DecidableEq κ'] {g : α → List β} {h : β → κ'} {seen' : List κ'}
    (hseen : ∀ a ∈ as, f a∈seen → ∀ b ∈ g a, h b∈seen')
    (hsame : ∀ a ∈ as, ∀ a' ∈ as, f a=f a' → ∀ b ∈ g a', h b∈(g a).map h++seen') :
    firsts h seen' (as.flatMap g)=firsts h seen' ((firsts f seen as).flatMap g) := by
  induction as generalizing seen seen' with
  | nil => rfl
  | cons a as ih =>
    obtain ⟨hfirst,hrest⟩ := forall_mem_cons.mp hseen
    have hsame' : ∀ b ∈ as, ∀ c ∈ as, f b=f c → ∀ x ∈ g c, h x∈(g b).map h++seen' :=
      fun b hb c hc => hsame b (.tail _ hb) c (.tail _ hc)
    rw [flatMap_cons,firsts_append,firsts]
    split
    · rename_i hold
      have hmem : ∀ k, k∈(g a).map h++seen' ↔ k∈seen' := by
        intro k
        rw [mem_append,or_iff_right_of_imp]
        rintro hk
        obtain ⟨b,hb,rfl⟩ := mem_map.mp hk
        exact hfirst hold b hb
      rw [firsts_eq_nil (hfirst hold),nil_append,firsts_congr (fun b _ => hmem (h b)),ih hrest hsame']
    · rw [flatMap_cons,firsts_append]
      refine congrArg (firsts h seen' (g a)++·) (ih (fun b hb hmem x hx => ?_) fun b hb c hc heq x hx => ?_)
      · rcases mem_cons.mp hmem with heq | hmem
        · exact hsame a (.head _) b (.tail _ hb) heq.symm x hx
        · exact mem_append_right _ (hrest b hb hmem x hx)
      · exact (mem_append.mp (hsame' b hb c hc heq x hx)).elim (mem_append_left _) fun hx =>
          mem_append_right _ (mem_append_right _ hx)

end

section

variable {α κ : Type*} [DecidableEq κ] {f : α → κ} {cmp : α → α → Ordering}

theorem append_inj_of_all {p : α → Bool} {as bs as' bs' : List α} (h : as++bs=as'++bs')
    (has : ∀ a ∈ as, p a=true) (has' : ∀ a ∈ as', p a=true) (hbs : ∀ b ∈ bs, p b=false)
    (hbs' : ∀ b ∈ bs', p b=false) : as=as' ∧ bs=bs' := by
  have hfilter := congrArg (filter p) h
  rw [filter_append,filter_append,filter_eq_self.mpr has,filter_eq_self.mpr has',
    filter_eq_nil_iff.mpr fun b hb => by simp [hbs b hb],
    filter_eq_nil_iff.mpr fun b hb => by simp [hbs' b hb],append_nil,append_nil] at hfilter
  subst hfilter
  exact ⟨rfl,append_cancel_left h⟩

theorem exists_mergeSort_cons (h : Sorts cmp) (a : α) (as : List α) :
    ∃ before after, (a::as).mergeSort (leOf cmp)=before++a::after ∧ as.mergeSort (leOf cmp)=before++after ∧
      (∀ b ∈ before, (!leOf cmp a b)=true) ∧ ∀ b ∈ after, (!leOf cmp a b)=false := by
  obtain ⟨before,after,hsort,hrest,hbefore⟩ := mergeSort_cons h.leOf_trans h.leOf_total a as
  have hsorted := pairwise_mergeSort h.leOf_trans h.leOf_total (a::as)
  rw [hsort] at hsorted
  exact ⟨before,after,hsort,hrest,hbefore,fun b hb => by
    rw [(pairwise_cons.mp (pairwise_append.mp hsorted).2.1).1 b hb]
    rfl⟩

theorem filter_mergeSort (h : Sorts cmp) (p : α → Bool) (as : List α) :
    (as.mergeSort (leOf cmp)).filter p=(as.filter p).mergeSort (leOf cmp) := by
  induction as with
  | nil => rw [mergeSort_nil,filter_nil,mergeSort_nil]
  | cons a as ih =>
    obtain ⟨before,after,hsort,hrest,hbefore,hafter⟩ := exists_mergeSort_cons h a as
    rw [hrest,filter_append] at ih
    rw [hsort,filter_append,filter_cons,filter_cons]
    split
    · obtain ⟨before',after',hsort',hrest',hbefore',hafter'⟩ := exists_mergeSort_cons h a (as.filter p)
      obtain ⟨hb,ha⟩ := append_inj_of_all (ih.trans hrest') (fun b hb => hbefore b (mem_filter.mp hb).1) hbefore'
        (fun b hb => hafter b (mem_filter.mp hb).1) hafter'
      rw [hsort',hb,ha]
    · exact ih

theorem map_val_mergeSort {as : List α} (l : List { a // a∈as }) :
    (l.mergeSort (leOf fun a b => cmp a.1 b.1)).map Subtype.val=(l.map Subtype.val).mergeSort (leOf cmp) :=
  map_mergeSort fun _ _ _ _ => rfl

section

variable {as : List α} (hswap : ∀ a b, cmp b a=(cmp a b).swap) (htrans : TransOn cmp as)

include hswap htrans

theorem sorts_of_mem : Sorts fun a b : { a // a∈as } => cmp a.1 b.1 :=
  ⟨fun a b => hswap a.1 b.1,fun a b c => htrans a.1 a.2 b.1 b.2 c.1 c.2⟩

theorem pairwise_mergeSort_of_mem : (as.mergeSort (leOf cmp)).Pairwise fun a b => leOf cmp a b=true := by
  have hsorts := sorts_of_mem hswap htrans
  rw [← attach_map_subtype_val as,← map_val_mergeSort,pairwise_map]
  exact pairwise_mergeSort hsorts.leOf_trans hsorts.leOf_total as.attach

theorem filter_mergeSort_of_mem (p : α → Bool) :
    (as.mergeSort (leOf cmp)).filter p=(as.filter p).mergeSort (leOf cmp) := by
  have hall := congrArg (map Subtype.val) (filter_mergeSort (sorts_of_mem hswap htrans) (fun a => p a.1) as.attach)
  have hfilter : ∀ l : List { a // a∈as }, (l.filter fun a => p a.1).map Subtype.val=(l.map Subtype.val).filter p :=
    fun l => filter_map.symm
  rwa [map_val_mergeSort,hfilter,hfilter,map_val_mergeSort,attach_map_subtype_val] at hall

end

/-- Elements with one key compare as equal: the first ones of the sorted list are the first ones, sorted. -/
theorem firsts_mergeSort (h : Sorts cmp) (hkey : ∀ a b, f a=f b → cmp a b = .eq) (seen : List κ) (as : List α) :
    firsts f seen (as.mergeSort (leOf cmp))=(firsts f seen as).mergeSort (leOf cmp) := by
  induction as generalizing seen with
  | nil => rw [mergeSort_nil,firsts,mergeSort_nil]
  | cons a as ih =>
    obtain ⟨before,after,hsort,hrest,hbefore,hafter⟩ := exists_mergeSort_cons h a as
    rw [hsort,firsts]
    split
    · rename_i hseen
      rw [firsts_skip hseen,← hrest,ih]
    · rename_i hseen
      obtain ⟨before',after',hsort',hrest',hbefore',hafter'⟩ := exists_mergeSort_cons h a (firsts f (f a::seen) as)
      -- an element with the key of `a` is not before it
      have hne : ∀ b ∈ before, f b≠f a := by
        intro b hb heq
        have hle := hbefore b hb
        rw [leOf,hkey a b heq.symm] at hle
        exact absurd hle (by decide)
      have hsplit : before'++after'=firsts f seen before++firsts f (before.map f++f a::seen) after := by
        have hsame : firsts f (f a::seen) before=firsts f seen before := by
          refine firsts_congr fun b hb => ?_
          rw [mem_cons]
          exact ⟨fun h => h.resolve_left (hne b hb),.inr⟩
        rw [← hrest',← ih,hrest,firsts_append,hsame]
      obtain ⟨rfl,rfl⟩ := append_inj_of_all hsplit hbefore'
        (fun b hb => hbefore b ((firsts_sublist _ _).subset hb)) hafter'
        (fun b hb => hafter b ((firsts_sublist _ _).subset hb))
      have hfresh : f a∉before.map f++seen := by
        rw [mem_append,not_or]
        refine ⟨fun hmem => ?_,hseen⟩
        obtain ⟨b,hb,heq⟩ := mem_map.mp hmem
        exact hne b hb heq
      have hsame : firsts f (f a::(before.map f++seen)) after=firsts f (before.map f++f a::seen) after := by
        refine firsts_congr fun b _ => ?_
        rw [mem_cons,mem_append,mem_append,mem_cons]
        tauto
      rw [hsort',firsts_append,firsts,if_neg hfresh,hsame]

theorem firsts_mergeSort_of_mem {as : List α} (hswap : ∀ a b, cmp b a=(cmp a b).swap) (htrans : TransOn cmp as)
    (hkey : ∀ a ∈ as, ∀ b ∈ as, f a=f b → cmp a b = .eq) :
    firsts f [] (as.mergeSort (leOf cmp))=(firsts f [] as).mergeSort (leOf cmp) := by
  have hall := congrArg (map Subtype.val) (firsts_mergeSort (f := fun a : { a // a∈as } => f a.1)
    (sorts_of_mem hswap htrans) (fun a b => hkey a.1 a.2 b.1 b.2) [] as.attach)
  have hfirsts : ∀ l : List { a // a∈as }, (firsts (fun a : { a // a∈as } => f a.1) [] l).map Subtype.val =
      firsts f [] (l.map Subtype.val) := fun l => (map_firsts [] l).symm
  rwa [map_val_mergeSort,hfirsts,hfirsts,map_val_mergeSort,attach_map_subtype_val] at hall

end
end NamiDB.Lib
