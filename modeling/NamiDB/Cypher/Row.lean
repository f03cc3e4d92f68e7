import Mathlib.Data.String.Basic
import NamiDB.Cypher.Evaluate

/-! The rows of the executor: bindings in the order of their names. -/
namespace NamiDB.Cypher
open Query Storage Lib List

/-- The names of the bindings are in order, so that a row is known by what it binds. -/
structure Row where
  bindings : List (String × RuntimeValue)
  sorted : bindings.Pairwise (·.1<·.1)

namespace Row

variable {l : List (String × RuntimeValue)}
variable {k x : String} {v : RuntimeValue} {a b : Row}

def new : Row := ⟨[],Pairwise.nil⟩

def get (self : Row) (name : String) : Option RuntimeValue := self.bindings.lookup name

theorem mem_mapInsert {e} (h : e∈mapInsert k v l) : e=(k,v) ∨ e∈l := by
  induction l with
  | nil => exact .inl (by simpa [mapInsert] using h)
  | cons e' rest ih =>
    unfold mapInsert at h
    split at h
    · simpa using h
    · split at h
      · rcases mem_cons.mp h with h | h
        · exact .inl h
        · exact .inr (.tail _ h)
      · rcases mem_cons.mp h with h | h
        · exact .inr (by simp [h])
        · rcases ih h with h | h
          · exact .inl h
          · exact .inr (.tail _ h)

theorem sorted_mapInsert (k : String) (v : RuntimeValue)
    (h : l.Pairwise (·.1<·.1)) : (mapInsert k v l).Pairwise (·.1<·.1) := by
  induction l with
  | nil => simp [mapInsert]
  | cons e rest ih =>
    obtain ⟨hhead,htail⟩ := pairwise_cons.mp h
    unfold mapInsert
    split
    · rename_i hlt
      refine pairwise_cons.mpr ⟨fun e he => ?_,h⟩
      rcases mem_cons.mp he with rfl | he
      · exact hlt
      · exact lt_trans hlt (hhead e he)
    · rename_i hlt
      split
      · rename_i heq
        exact pairwise_cons.mpr ⟨fun e he => heq ▸ hhead e he,htail⟩
      · rename_i hne
        refine pairwise_cons.mpr ⟨fun e he => ?_,ih htail⟩
        rcases mem_mapInsert he with rfl | he
        · exact lt_of_le_of_ne (not_lt.mp hlt) (fun h => hne h.symm)
        · exact hhead e he

theorem lookup_cons_ne (hx : x≠k) : ((k,v)::l).lookup x=l.lookup x := by
  rw [lookup_cons,beq_eq_false_iff_ne.mpr hx]

theorem lookup_mapInsert (k : String) (v : RuntimeValue) (h : l.Pairwise (·.1<·.1)) (x : String) :
    (mapInsert k v l).lookup x=if x=k then some v else l.lookup x := by
  induction l with
  | nil =>
    by_cases hx : x=k
    · simp [mapInsert,hx]
    · simp [mapInsert,hx]
  | cons e rest ih =>
    obtain ⟨k',v'⟩ := e
    unfold mapInsert
    split
    · by_cases hx : x=k
      · simp [hx]
      · simp [lookup_cons_ne hx,hx]
    · split
      · rename_i heq
        subst heq
        by_cases hx : x=k
        · simp [hx]
        · simp [lookup_cons_ne hx,hx]
      · rename_i hne
        by_cases hx : x=k'
        · subst hx
          simp [Ne.symm hne]
        · rw [lookup_cons_ne hx,lookup_cons_ne hx,ih (pairwise_cons.mp h).2]

def set (self : Row) (name : String) (value : RuntimeValue) : Row :=
  ⟨mapInsert name value self.bindings,sorted_mapInsert name value self.sorted⟩

def extend (self other : Row) : Row := other.bindings.foldl (fun row e => row.set e.1 e.2) self

@[simp] theorem get_new (x : String) : new.get x=none := rfl

@[simp] theorem get_set (self : Row) (k : String) (v : RuntimeValue) (x : String) :
    (self.set k v).get x=if x=k then some v else self.get x :=
  lookup_mapInsert k v self.sorted x

theorem lookup_eq_none_of_lt (h : ∀ e ∈ l, x<e.1) : l.lookup x=none := by
  rw [lookup_eq_none_iff]
  intro e he
  simpa using (ne_of_lt (h e he))

theorem get_extend (self other : Row) (x : String) : (self.extend other).get x=(other.get x).or (self.get x) := by
  obtain ⟨l,hl⟩ := other
  show (l.foldl (fun row e => row.set e.1 e.2) self).get x=(l.lookup x).or (self.get x)
  induction l generalizing self with
  | nil => rfl
  | cons e rest ih =>
    obtain ⟨hhead,htail⟩ := pairwise_cons.mp hl
    obtain ⟨k,v⟩ := e
    rw [foldl_cons,ih _ htail,get_set]
    by_cases hx : x=k
    · subst hx
      simp [lookup_eq_none_of_lt hhead]
    · simp [lookup_cons_ne hx,hx]

theorem forall₂_bindings {R : String → RuntimeValue → RuntimeValue → Prop}
    (h : ∀ x, Option.Rel (R x) (a.get x) (b.get x)) :
    Forall₂ (fun e e' => e.1=e'.1 ∧ R e.1 e.2 e'.2) a.bindings b.bindings := by
  obtain ⟨l,hl⟩ := a
  obtain ⟨m,hm⟩ := b
  simp only [get] at h ⊢
  induction l generalizing m with
  | nil =>
    cases m with
    | nil => exact .nil
    | cons e m =>
      obtain ⟨k,v⟩ := e
      have hk := h k
      simp only [lookup_cons_self] at hk
      cases hk
  | cons e l ih =>
    obtain ⟨k,v⟩ := e
    cases m with
    | nil =>
      have hk := h k
      simp only [lookup_cons_self] at hk
      cases hk
    | cons f m =>
      obtain ⟨k',v'⟩ := f
      obtain ⟨hel,hl'⟩ := pairwise_cons.mp hl
      obtain ⟨hfm,hm'⟩ := pairwise_cons.mp hm
      have hkey : k=k' := by
        rcases lt_trichotomy k k' with hlt | heq | hgt
        · have hk := h k
          rw [lookup_eq_none_of_lt (forall_mem_cons.mpr ⟨hlt,fun g hg => lt_trans hlt (hfm g hg)⟩),
            lookup_cons_self] at hk
          cases hk
        · exact heq
        · have hk := h k'
          rw [lookup_eq_none_of_lt (forall_mem_cons.mpr ⟨hgt,fun g hg => lt_trans hgt (hel g hg)⟩),
            lookup_cons_self] at hk
          cases hk
      subst hkey
      have hval : R k v v' := by
        have hk := h k
        simp only [lookup_cons_self] at hk
        cases hk
        assumption
      refine .cons ⟨rfl,hval⟩ (ih hl' m hm' fun x => ?_)
      by_cases hx : x=k
      · subst hx
        rw [lookup_eq_none_of_lt hel,lookup_eq_none_of_lt hfm]
        exact .none
      · simpa only [lookup_cons_ne hx] using h x

theorem ext_get (h : ∀ x, a.get x=b.get x) : a=b := by
  have hsame := forall₂_bindings (R := fun _ v w => v=w) (a := a) (b := b) fun x => by
    rw [h x]
    cases b.get x with
    | none => exact .none
    | some v => exact .some rfl
  obtain ⟨l,hl⟩ := a
  congr
  rw [← forall₂_eq_eq_eq]
  exact hsame.imp fun _ _ he => Prod.ext he.1 he.2

end Row

abbrev evalRow (L : Scalars) (params : Params) (e : Expression) (row : Row) : Except EvalError RuntimeValue :=
  evaluate L params e row.get

end NamiDB.Cypher
