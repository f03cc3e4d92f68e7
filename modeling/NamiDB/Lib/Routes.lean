import Mathlib.Data.List.Nodup
import Mathlib.Data.Nat.Init

/-! Routes along labelled edges: how far they lead at least, that a shortest one takes no edge twice, and a list of
those that take none twice. -/
namespace NamiDB.Lib
open List

section

variable {N K : Type*} {E : N → K → N → Prop} {s t u v : N} {k : K} {hops hops' : List (K × N)} {n : Nat}

/-- The hops of a route: each edge with the node that it leads to. -/
inductive Route (E : N → K → N → Prop) : N → List (K × N) → N → Prop where
  | nil (u : N) : Route E u [] u
  | cons {u v t : N} {k : K} {hops : List (K × N)} : E u k v → Route E v hops t → Route E u ((k,v)::hops) t

def Shortest (E : N → K → N → Prop) (s : N) (hops : List (K × N)) (t : N) : Prop :=
  Route E s hops t ∧ ∀ hops', Route E s hops' t → hops.length≤hops'.length

def Connects (E : N → K → N → Prop) (s t : N) (n : Nat) : Prop := ∃ hops, Route E s hops t ∧ hops.length=n

theorem Route.append (h : Route E s hops u) (h' : Route E u hops' t) : Route E s (hops++hops') t := by
  induction h with
  | nil => exact h'
  | cons he _ ih => exact .cons he (ih h')

theorem Route.mono (h : Route E s hops t) (himp : ∀ u k v, E u k v → E' u k v) : Route E' s hops t := by
  induction h with
  | nil u => exact .nil u
  | cons he _ ih => exact .cons (himp _ _ _ he) ih

theorem Route.exists_edge (h : Route E s hops t) (hmem : (k,v)∈hops) : ∃ u, E u k v := by
  induction h with
  | nil => cases hmem
  | cons he _ ih =>
    cases hmem with
    | head => exact ⟨_,he⟩
    | tail _ hmem => exact ih hmem

theorem Route.split (h : Route E s (hops++hops') t) : ∃ u, Route E s hops u ∧ Route E u hops' t := by
  induction hops generalizing s with
  | nil => exact ⟨s,.nil s,h⟩
  | cons hop hops ih =>
    cases h with
    | cons he hrest =>
      obtain ⟨u,hu,hu'⟩ := ih hrest
      exact ⟨u,.cons he hu,hu'⟩

theorem Route.snoc (h : Route E s hops u) (he : E u k v) : Route E s (hops++[(k,v)]) v :=
  h.append (.cons he (.nil v))

theorem connects_zero : Connects E s t 0 ↔ s=t := by
  constructor
  · rintro ⟨hops,h,hlen⟩
    cases h with
    | nil => rfl
    | cons => cases hlen
  · rintro rfl
    exact ⟨[],.nil s,rfl⟩

theorem Connects.trans (h : Connects E s u m) (h' : Connects E u t n) : Connects E s t (m+n) := by
  obtain ⟨hops,hroute,rfl⟩ := h
  obtain ⟨hops',hroute',rfl⟩ := h'
  exact ⟨hops++hops',hroute.append hroute',length_append⟩

theorem Connects.split (h : Connects E s t (m+n)) : ∃ u, Connects E s u m ∧ Connects E u t n := by
  obtain ⟨hops,hroute,hlen⟩ := h
  rw [← take_append_drop m hops] at hroute
  obtain ⟨u,hu,hu'⟩ := hroute.split
  exact ⟨u,⟨_,hu,by rw [length_take]; omega⟩,⟨_,hu',by rw [length_drop]; omega⟩⟩

theorem connects_one : Connects E u v 1 ↔ ∃ k, E u k v := by
  constructor
  · rintro ⟨hops,h,hlen⟩
    cases h with
    | nil => cases hlen
    | cons he hrest =>
      cases hrest with
      | nil => exact ⟨_,he⟩
      | cons => cases hlen
  · rintro ⟨k,he⟩
    exact ⟨[(k,v)],.cons he (.nil v),rfl⟩

theorem connects_succ : Connects E s t (n+1) ↔ ∃ u k, Connects E s u n ∧ E u k t := by
  constructor
  · intro h
    obtain ⟨u,hu,h1⟩ := h.split
    obtain ⟨k,he⟩ := connects_one.mp h1
    exact ⟨u,k,hu,he⟩
  · rintro ⟨u,k,hu,he⟩
    exact hu.trans (connects_one.mpr ⟨k,he⟩)

def Reversed (E : N → K → N → Prop) (u : N) (k : K) (v : N) : Prop := E v k u

theorem Connects.reversed (h : Connects E s t n) : Connects (Reversed E) t s n := by
  induction n generalizing t with
  | zero => exact connects_zero.mpr (connects_zero.mp h).symm
  | succ n ih =>
    obtain ⟨u,k,hu,he⟩ := connects_succ.mp h
    have h1 : Connects (Reversed E) t u 1 := connects_one.mpr ⟨k,he⟩
    rw [Nat.add_comm]
    exact h1.trans (ih hu)

theorem connects_reversed : Connects (Reversed E) s t n ↔ Connects E t s n :=
  ⟨fun h => h.reversed,fun h => h.reversed⟩

section

def endOf (s : N) (hops : List (K × N)) : N := (hops.getLast?.map Prod.snd).getD s

@[simp] theorem endOf_nil (s : N) : endOf s ([] : List (K × N))=s := rfl

@[simp] theorem endOf_concat (s : N) (hops : List (K × N)) (h : K × N) : endOf s (hops++[h])=h.2 := by
  simp [endOf]

theorem endOf_cons (s : N) (k : K) (v : N) (hops : List (K × N)) : endOf s ((k,v)::hops)=endOf v hops := by
  cases hops with
  | nil => rfl
  | cons hop hops =>
    rw [endOf,endOf,getLast?_cons_cons]
    obtain ⟨last,hlast⟩ := Option.ne_none_iff_exists'.mp (getLast?_eq_none_iff.not.mpr (cons_ne_nil hop hops))
    rfl

theorem Route.endOf_eq (h : Route E s hops t) : endOf s hops=t := by
  induction h with
  | nil => rfl
  | cons _ _ ih => rw [endOf_cons,ih]

variable [DecidableEq K] (edges : N → List (K × N))

/-- The routes that go on from one by an edge it has not taken yet. -/
def longer (s : N) (hops : List (K × N)) : List (List (K × N)) :=
  ((edges (endOf s hops)).filter fun h => h.1∉hops.map Prod.fst).map fun h => hops++[h]

/-- The trails of some length: the routes that take no edge twice. -/
def trails (s : N) : Nat → List (List (K × N))
  | 0 => [[]]
  | n+1 => (trails s n).flatMap (longer edges s)

variable {edges}

theorem mem_longer : hops'∈longer edges s hops ↔
    ∃ k v, (k,v)∈edges (endOf s hops) ∧ k∉hops.map Prod.fst ∧ hops'=hops++[(k,v)] := by
  simp only [longer,mem_map,mem_filter,decide_eq_true_eq]
  constructor
  · rintro ⟨⟨k,v⟩,⟨hmem,hk⟩,rfl⟩
    exact ⟨k,v,hmem,hk,rfl⟩
  · rintro ⟨k,v,hmem,hk,rfl⟩
    exact ⟨(k,v),⟨hmem,hk⟩,rfl⟩

theorem mem_trails : hops∈trails edges s n ↔ hops.length=n ∧
    Route (fun u k v => (k,v)∈edges u) s hops (endOf s hops) ∧ (hops.map Prod.fst).Nodup := by
  induction n generalizing hops with
  | zero =>
    rw [trails,mem_singleton,length_eq_zero_iff]
    constructor
    · rintro rfl
      exact ⟨rfl,.nil s,nodup_nil⟩
    · exact fun h => h.1
  | succ n ih =>
    rw [trails,mem_flatMap]
    constructor
    · rintro ⟨shorter,hshorter,hmem⟩
      obtain ⟨hlen,hroute,hnodup⟩ := ih.mp hshorter
      obtain ⟨k,v,he,hk,rfl⟩ := mem_longer.mp hmem
      refine ⟨by simp [hlen],?_,?_⟩
      · rw [endOf_concat]
        exact hroute.snoc he
      · rw [map_append,map_singleton,← concat_eq_append,nodup_concat]
        exact ⟨hk,hnodup⟩
    · rintro ⟨hlen,hroute,hnodup⟩
      obtain ⟨shorter,⟨k,v⟩,rfl⟩ : ∃ shorter h, hops=shorter++[h] :=
        ⟨_,_,(dropLast_append_getLast (ne_nil_of_length_eq_add_one hlen)).symm⟩
      rw [map_append,map_singleton,← concat_eq_append,nodup_concat] at hnodup
      obtain ⟨u,hroute,hlast⟩ := hroute.split
      cases hlast with
      | cons he _ =>
        have hu := hroute.endOf_eq
        refine ⟨shorter,ih.mpr ⟨by simpa using hlen,hu ▸ hroute,hnodup.2⟩,?_⟩
        exact mem_longer.mpr ⟨k,v,hu ▸ he,hnodup.1,rfl⟩

theorem nodup_trails (h : ∀ u, (edges u).Nodup) : (trails edges s n).Nodup := by
  induction n with
  | zero => exact nodup_singleton _
  | succ n ih =>
    refine nodup_flatMap.mpr ⟨fun hops _ => ?_,ih.imp fun {hops hops'} hne => ?_⟩
    · refine .map (fun a b hab => ?_) ((h _).filter _)
      simpa using hab
    · intro w hw hw'
      obtain ⟨k,v,-,-,rfl⟩ := mem_longer.mp hw
      obtain ⟨k',v',-,-,heq⟩ := mem_longer.mp hw'
      exact hne (append_inj_left' heq rfl)

theorem trails_eq_nil (h : trails edges s m=[]) (hmn : m≤n) : trails edges s n=[] := by
  induction n, hmn using Nat.le_induction with
  | base => exact h
  | succ n _ ih => rw [trails,ih,flatMap_nil]

end

section

/-- From a node back to where its side started, each time with the edge that led there. -/
inductive Climbs (E : N → K → N → Prop) : N → List (N × K) → N → Prop where
  | nil (u : N) : Climbs E u [] u
  | cons {u p stop : N} {k : K} {chain : List (N × K)} :
    E p k u → Climbs E p chain stop → Climbs E u ((p,k)::chain) stop

variable {chain : List (N × K)} {stop : N}

theorem Climbs.route (h : Climbs E u chain stop) : ∃ hops, Route E stop hops u ∧
    hops.map Prod.fst=(chain.map Prod.snd).reverse ∧ stop::hops.map Prod.snd=(chain.map Prod.fst).reverse++[u] := by
  induction h with
  | nil u => exact ⟨[],.nil u,rfl,rfl⟩
  | cons he _ ih =>
    obtain ⟨hops,hroute,hedges,hnodes⟩ := ih
    refine ⟨hops++[_],hroute.snoc he,?_,?_⟩
    · simp [hedges]
    · rw [map_append,← cons_append,hnodes]
      simp

theorem Climbs.route_reversed (h : Climbs (Reversed E) u chain stop) :
    Route E u (chain.map fun a => (a.2,a.1)) stop := by
  induction h with
  | nil u => exact .nil u
  | cons he _ ih => exact .cons he ih

end

theorem Shortest.tail (h : Shortest E s ((k,v)::hops) t) : Shortest E v hops t := by
  obtain ⟨hroute,hleast⟩ := h
  cases hroute with
  | cons he hrest =>
    refine ⟨hrest,fun hops' h' => ?_⟩
    have hlen := hleast _ (.cons he h')
    simpa using hlen

theorem Route.exists_shortest (h : Route E s hops t) : ∃ hops', Shortest E s hops' t ∧ hops'.length≤hops.length := by
  induction hlen : hops.length using Nat.strong_induction_on generalizing hops with
  | _ n ih =>
    by_cases hleast : ∀ hops', Route E s hops' t → hops.length≤hops'.length
    · exact ⟨hops,⟨h,hleast⟩,Nat.le_of_eq hlen⟩
    · push Not at hleast
      obtain ⟨hops',h',hlt⟩ := hleast
      obtain ⟨hops'',hs,hle⟩ := ih hops'.length (by omega) h' rfl
      exact ⟨hops'',hs,by omega⟩

theorem Shortest.of_concat (hs : Shortest E s (hops++[h]) t) : h.2=t ∧ ∃ u, Shortest E s hops u ∧ E u h.1 h.2 := by
  obtain ⟨hroute,hleast⟩ := hs
  obtain ⟨u,hu,hlast⟩ := hroute.split
  cases hlast with
  | cons he hnil =>
    cases hnil with
    | nil =>
      refine ⟨rfl,u,⟨hu,fun hops' h' => ?_⟩,he⟩
      have hlen := hleast _ (h'.snoc he)
      simpa using hlen

/-- Where an edge fixes its ends up to their order, a shortest route takes none twice. -/
theorem Shortest.nodup (h : Shortest E s hops t) (hends : ∀ k u v u' v', E u k v → E u' k v' → u=u' ∨ u=v') :
    (hops.map Prod.fst).Nodup := by
  induction hops generalizing s with
  | nil => exact nodup_nil
  | cons hop hops ih =>
    refine nodup_cons.mpr ⟨fun hmem => ?_,ih h.tail⟩
    obtain ⟨⟨_,v'⟩,hhop,rfl⟩ := mem_map.mp hmem
    obtain ⟨before,after,rfl⟩ := append_of_mem hhop
    obtain ⟨hroute,hleast⟩ := h
    -- The edge comes again at `u'`, so the way from its first use to there can be left out.
    cases hroute with
    | cons he hrest =>
      obtain ⟨u',-,hagain⟩ := hrest.split
      cases hagain with
      | cons he' hafter =>
        rcases hends _ _ _ _ _ he he' with rfl | rfl
        · have hlen := hleast _ (.cons he' hafter)
          simp only [length_cons,length_append] at hlen
          omega
        · have hlen := hleast _ hafter
          simp only [length_cons,length_append] at hlen
          omega

end
end NamiDB.Lib
