import NamiDB.Lib.Firsts

/-! Walks along edges that use no edge twice, level by level: all of them, or only the first one that arrives
at each node. -/
namespace NamiDB.Lib
open List

section

variable {N K : Type*}

structure Walk (N K : Type*) where
  tail : N
  rels : List K

/-- A level while it is built. `seen` are the nodes that something has arrived at. -/
structure Level (N K : Type*) where
  seen : List N
  walks : List (Walk N K)

section

variable [DecidableEq N] [DecidableEq K]

/-- A walk goes on along an edge. With `prune`, only the first arrival at a node is looked at, and none at a
node of an earlier level. -/
def arrive (prune : Bool) (visited : List N) (st : Level N K) (a : Walk N K × K × N) : Level N K :=
  if prune&&(visited.contains a.2.2||st.seen.contains a.2.2) then st
  else if a.1.rels.contains a.2.1 then ⟨a.2.2::st.seen,st.walks⟩
  else ⟨a.2.2::st.seen,st.walks++[⟨a.2.2,a.1.rels++[a.2.1]⟩]⟩

section

variable {prune : Bool} {visited : List N} {st : Level N K} {w : Walk N K} {k : K} {t : N}

theorem arrive_skip (h : (prune&&(visited.contains t||st.seen.contains t))=true) :
    arrive prune visited st (w,k,t)=st :=
  if_pos h

theorem arrive_block (h : (prune&&(visited.contains t||st.seen.contains t))=false) (hk : k∈w.rels) :
    arrive prune visited st (w,k,t)=⟨t::st.seen,st.walks⟩ := by
  simp only [arrive,h,Bool.false_eq_true,if_false,contains_iff_mem,hk,if_true]

theorem arrive_push (h : (prune&&(visited.contains t||st.seen.contains t))=false) (hk : k∉w.rels) :
    arrive prune visited st (w,k,t)=⟨t::st.seen,st.walks++[⟨t,w.rels++[k]⟩]⟩ := by
  simp only [arrive,h,Bool.false_eq_true,if_false,contains_iff_mem,hk]

end
end

variable (edges : N → List (K × N))

def steps (frontier : List (Walk N K)) : List (Walk N K × K × N) :=
  frontier.flatMap fun w => (edges w.tail).map fun e => (w,e)

/-- `rels` lead from `s` to `t`, each of them once. -/
inductive Trail (s : N) : N → List K → Prop where
  | nil : Trail s s []
  | snoc {u t : N} {rels : List K} {k : K} : Trail s u rels → (k,t)∈edges u → k∉rels → Trail s t (rels++[k])

theorem mem_steps {frontier : List (Walk N K)} {w : Walk N K} {k : K} {t : N} :
    (w,k,t)∈steps edges frontier ↔ w∈frontier ∧ (k,t)∈edges w.tail := by
  simp [steps]

variable [DecidableEq N] [DecidableEq K]

def arrivals (prune : Bool) (visited : List N) (frontier : List (Walk N K)) : List (Walk N K) :=
  ((steps edges frontier).foldl (arrive prune visited) ⟨[],[]⟩).walks

def search (prune : Bool) : Nat → List N → List (Walk N K) → List (Walk N K)
  | 0, _, _ => []
  | n+1, visited, frontier =>
    let walks := arrivals edges prune visited frontier
    walks++search prune n (walks.map Walk.tail++visited) walks

variable {edges}

section

variable {visited : List N} {w : Walk N K} {frontier : List (Walk N K)}

theorem mem_foldl_all {l : List (Walk N K × K × N)} :
    w∈(l.foldl (arrive false visited) st).walks ↔ w∈st.walks ∨
      ∃ p k, (p,k,w.tail)∈l ∧ k∉p.rels ∧ w.rels=p.rels++[k] := by
  induction l generalizing st with
  | nil => simp
  | cons a l ih =>
    obtain ⟨p,k,t⟩ := a
    rw [foldl_cons,ih]
    by_cases hk : k∈p.rels
    · rw [arrive_block rfl hk]
      refine or_congr_right ⟨?_,?_⟩
      · rintro ⟨p',k',hmem,h⟩
        exact ⟨p',k',.tail _ hmem,h⟩
      · rintro ⟨p',k',hmem,hk',h⟩
        rcases mem_cons.mp hmem with heq | hmem
        · cases heq
          exact absurd hk hk'
        · exact ⟨p',k',hmem,hk',h⟩
    · rw [arrive_push rfl hk,mem_append,mem_singleton,or_assoc]
      refine or_congr_right ⟨?_,?_⟩
      · rintro (rfl | ⟨p',k',hmem,h⟩)
        · exact ⟨p,k,.head _,hk,rfl⟩
        · exact ⟨p',k',.tail _ hmem,h⟩
      · rintro ⟨p',k',hmem,hk',h⟩
        rcases mem_cons.mp hmem with heq | hmem
        · cases heq
          exact .inl (by cases w; simp_all)
        · exact .inr ⟨p',k',hmem,hk',h⟩

theorem mem_arrivals_all : w∈arrivals edges false visited frontier ↔
      ∃ p ∈ frontier, ∃ k, (k,w.tail)∈edges p.tail ∧ k∉p.rels ∧ w.rels=p.rels++[k] := by
  simp only [arrivals,mem_foldl_all,not_mem_nil,false_or,mem_steps]
  constructor
  · rintro ⟨p,k,⟨hp,he⟩,h⟩
    exact ⟨p,hp,k,he,h⟩
  · rintro ⟨p,hp,k,he,h⟩
    exact ⟨p,k,⟨hp,he⟩,h⟩

theorem mem_search_all_from (hfrontier : ∀ w, w∈frontier ↔ Trail edges s w.tail w.rels ∧ w.rels.length=d) :
    w∈search edges false n visited frontier ↔ Trail edges s w.tail w.rels ∧ d<w.rels.length ∧ w.rels.length≤d+n := by
  induction n generalizing d visited frontier with
  | zero => simp [search]
  | succ n ih =>
    have hnext : ∀ w, w∈arrivals edges false visited frontier ↔
        Trail edges s w.tail w.rels ∧ w.rels.length=d+1 := by
      intro w
      rw [mem_arrivals_all]
      constructor
      · rintro ⟨p,hp,k,he,hk,hrels⟩
        obtain ⟨htrail,hlen⟩ := (hfrontier p).mp hp
        rw [hrels]
        exact ⟨htrail.snoc he hk,by simp [hlen]⟩
      · rintro ⟨htrail,hlen⟩
        generalize hrels : w.rels=rels at htrail hlen
        cases htrail with
        | nil => simp at hlen
        | @snoc u _ rels k hprev he hk =>
          refine ⟨⟨u,rels⟩,(hfrontier _).mpr ⟨hprev,by simpa using hlen⟩,k,?_,hk,rfl⟩
          exact he
    rw [search,mem_append,hnext,ih hnext]
    constructor
    · rintro (⟨ht,hl⟩ | ⟨ht,hl,hr⟩)
      · exact ⟨ht,by omega,by omega⟩
      · exact ⟨ht,by omega,by omega⟩
    · rintro ⟨ht,hl,hr⟩
      by_cases hd : w.rels.length=d+1
      · exact .inl ⟨ht,hd⟩
      · exact .inr ⟨ht,by omega,by omega⟩

theorem mem_search_all : w∈search edges false n visited [⟨s,[]⟩] ↔
      Trail edges s w.tail w.rels ∧ 0<w.rels.length ∧ w.rels.length≤n := by
  have hstart : ∀ w : Walk N K, w∈[(⟨s,[]⟩ : Walk N K)] ↔ Trail edges s w.tail w.rels ∧ w.rels.length=0 := by
    intro w
    obtain ⟨t,rels⟩ := w
    constructor
    · intro h
      cases mem_singleton.mp h
      exact ⟨.nil,rfl⟩
    · rintro ⟨htrail,hlen⟩
      cases htrail with
      | nil => exact mem_singleton_self _
      | snoc hprev he hk => simp at hlen
  simpa using mem_search_all_from hstart

end

section

variable {visited : List N} {frontier : List (Walk N K)} {w : Walk N K} {l : List (Walk N K × K × N)}
  {st : Level N K} {t : N}

theorem mem_foldl_first : w∈(l.foldl (arrive true visited) st).walks ↔ w∈st.walks ∨ (w.tail∉visited ∧ w.tail∉st.seen ∧
      ∃ p k, l.find? (fun a => a.2.2=w.tail)=some (p,k,w.tail) ∧ k∉p.rels ∧ w.rels=p.rels++[k]) := by
  induction l generalizing st with
  | nil => simp
  | cons a l ih =>
    obtain ⟨p,k,t⟩ := a
    rw [foldl_cons,ih]
    by_cases hskip : t∈visited ∨ t∈st.seen
    · rw [arrive_skip (by simpa using hskip)]
      by_cases ht : t=w.tail
      · subst ht
        exact or_congr_right (iff_of_false (fun h => hskip.elim h.1 h.2.1) fun h => hskip.elim h.1 h.2.1)
      · simp [ht]
    · obtain ⟨hv,hs⟩ := not_or.mp hskip
      by_cases hk : k∈p.rels
      · rw [arrive_block (by simp [hv,hs]) hk]
        by_cases ht : t=w.tail
        · subst ht
          simp only [mem_cons,true_or,not_true_eq_false,false_and,and_false,or_false,find?_cons,
            decide_true]
          constructor
          · exact .inl
          · rintro (h | ⟨-,-,p',k',heq,hk',-⟩)
            · exact h
            · cases heq
              exact absurd hk hk'
        · simp [ht,Ne.symm ht]
      · rw [arrive_push (by simp [hv,hs]) hk]
        by_cases ht : t=w.tail
        · subst ht
          simp only [mem_append,mem_cons,not_mem_nil,true_or,not_true_eq_false,false_and,
            and_false,or_false,find?_cons,decide_true]
          refine or_congr_right ⟨fun h => ⟨hv,hs,p,k,rfl,hk,by rw [h]⟩,?_⟩
          rintro ⟨-,-,p',k',heq,-,hrels⟩
          cases w
          simp_all
        · have hne : w≠⟨t,p.rels++[k]⟩ := fun h => ht (by rw [h])
          simp [ht,Ne.symm ht,hne]

theorem mem_arrivals : w∈arrivals edges true visited frontier ↔ w.tail∉visited ∧
      ∃ p k, (steps edges frontier).find? (fun a => a.2.2=w.tail)=some (p,k,w.tail) ∧ k∉p.rels ∧
        w.rels=p.rels++[k] := by
  simp [arrivals,mem_foldl_first]

theorem mem_tails : t∈(arrivals edges true visited frontier).map Walk.tail ↔ t∉visited ∧
      ∃ p k, (steps edges frontier).find? (fun a => a.2.2=t)=some (p,k,t) ∧ k∉p.rels := by
  rw [mem_map]
  constructor
  · rintro ⟨w,hw,rfl⟩
    obtain ⟨hv,p,k,hfind,hk,-⟩ := mem_arrivals.mp hw
    exact ⟨hv,p,k,hfind,hk⟩
  · rintro ⟨hv,p,k,hfind,hk⟩
    exact ⟨⟨t,p.rels++[k]⟩,mem_arrivals.mpr ⟨hv,p,k,hfind,hk,rfl⟩,rfl⟩

theorem nodup_foldl_first (hnodup : (st.walks.map Walk.tail).Nodup) (hseen : ∀ t ∈ st.walks.map Walk.tail, t∈st.seen) :
    ((l.foldl (arrive true visited) st).walks.map Walk.tail).Nodup := by
  induction l generalizing st with
  | nil => exact hnodup
  | cons a l ih =>
    obtain ⟨p,k,t⟩ := a
    rw [foldl_cons]
    by_cases hskip : (true&&(visited.contains t||st.seen.contains t))=true
    · rw [arrive_skip hskip]
      exact ih hnodup hseen
    · have hnew : t∉st.seen := by
        simp only [Bool.true_and,Bool.or_eq_true,contains_iff_mem,not_or] at hskip
        exact hskip.2
      rw [Bool.not_eq_true] at hskip
      by_cases hk : k∈p.rels
      · rw [arrive_block hskip hk]
        exact ih hnodup fun t ht => .tail _ (hseen t ht)
      · rw [arrive_push hskip hk]
        refine ih ?_ fun t' ht => ?_
        · rw [map_append,map_singleton,nodup_append]
          refine ⟨hnodup,nodup_cons.mpr ⟨not_mem_nil,nodup_nil⟩,?_⟩
          intro t' ht' _ ht heq
          have heq : t'=t := heq.trans (mem_singleton.mp ht)
          exact hnew (heq ▸ hseen t' ht')
        · rw [map_append,map_singleton,mem_append,mem_singleton] at ht
          exact ht.elim (fun ht => .tail _ (hseen t' ht)) fun ht => ht ▸ mem_cons_self

theorem nodup_search (n : Nat) (visited : List N) (frontier : List (Walk N K)) :
    ((search edges true n visited frontier).map Walk.tail).Nodup ∧
      ∀ t ∈ (search edges true n visited frontier).map Walk.tail, t∉visited := by
  induction n generalizing visited frontier with
  | zero => exact ⟨nodup_nil,fun t ht => nomatch ht⟩
  | succ n ih =>
    obtain ⟨hnodup,hnew⟩ := ih ((arrivals edges true visited frontier).map Walk.tail++visited)
      (arrivals edges true visited frontier)
    have hfirst : ((arrivals edges true visited frontier).map Walk.tail).Nodup :=
      nodup_foldl_first nodup_nil fun t ht => nomatch ht
    rw [search,map_append]
    refine ⟨nodup_append.mpr ⟨hfirst,hnodup,?_⟩,fun t ht => ?_⟩
    · rintro t ht _ ht' rfl
      exact hnew t ht' (mem_append_left _ ht)
    · rcases mem_append.mp ht with ht | ht
      · exact (mem_tails.mp ht).1
      · exact fun hv => hnew t ht (mem_append_right _ hv)

omit [DecidableEq K] in
theorem mem_of_find_steps (h : (steps edges frontier).find? (fun a => a.2.2=t)=some (p,k,t)) :
    p∈frontier ∧ (k,t)∈edges p.tail :=
  (mem_steps edges).mp (mem_of_find?_eq_some h)

omit [DecidableEq K] in
theorem exists_find_steps (hw : w∈frontier) (he : (k,t)∈edges w.tail) :
    ∃ p k', (steps edges frontier).find? (fun a => a.2.2=t)=some (p,k',t) := by
  have hsome : ((steps edges frontier).find? fun a => a.2.2=t).isSome :=
    find?_isSome.mpr ⟨(w,k,t),(mem_steps edges).mpr ⟨hw,he⟩,by simp⟩
  obtain ⟨⟨p,k',t'⟩,hfind⟩ := Option.isSome_iff_exists.mp hsome
  have ht : t'=t := by simpa using find?_some hfind
  exact ⟨p,k',by rw [hfind,ht]⟩

theorem trail_of_mem_search (hfrontier : ∀ w ∈ frontier, Trail edges s w.tail w.rels ∧ w.rels.length=d)
    (hw : w∈search edges true n visited frontier) :
    Trail edges s w.tail w.rels ∧ d<w.rels.length ∧ w.rels.length≤d+n := by
  induction n generalizing d visited frontier with
  | zero => cases hw
  | succ n ih =>
    have hnext : ∀ w ∈ arrivals edges true visited frontier, Trail edges s w.tail w.rels ∧ w.rels.length=d+1 := by
      intro w hw
      obtain ⟨-,p,k,hfind,hk,hrels⟩ := mem_arrivals.mp hw
      obtain ⟨hp,he⟩ := mem_of_find_steps hfind
      obtain ⟨htrail,hlen⟩ := hfrontier p hp
      rw [hrels]
      exact ⟨htrail.snoc he hk,by simp [hlen]⟩
    rcases mem_append.mp hw with hw | hw
    · obtain ⟨ht,hl⟩ := hnext w hw
      exact ⟨ht,by omega,by omega⟩
    · obtain ⟨ht,hl,hr⟩ := ih hnext hw
      exact ⟨ht,by omega,by omega⟩

section

/-- What a pruned search knows between two levels: the edges of a walk lie between nodes that were visited
before, and a node that is not at the end of a walk has been left along all its edges. `P` are the nodes
that an edge used before does not keep from being found. -/
structure Swept (edges : N → List (K × N)) (P : N → Prop) (s : N) (visited : List N) (frontier : List (Walk N K)) :
    Prop where
  tails : ∀ w ∈ frontier, w.tail∈visited ∨ w.tail=s
  rels : ∀ w ∈ frontier, ∀ k ∈ w.rels, ∃ u t, (k,t)∈edges u ∧ t∈visited ∧ (u∈visited ∨ u=s)
  left : ∀ u, u∈visited ∨ u=s → (∃ w ∈ frontier, w.tail=u) ∨ ∀ k t, (k,t)∈edges u → P t → t∈visited

variable {P : N → Prop} {s : N} {visited : List N} {frontier : List (Walk N K)} {rels : List K} {t : N}

section
variable (h : Swept edges P s visited frontier)
  (hP : ∀ t, P t → ∀ u k u' t', (k,t)∈edges u → (k,t')∈edges u' → t=t' ∨ t=u' ∧ t≠s)
include h hP

theorem Swept.reaches (hu : u∈visited ∨ u=s) (he : (k,t)∈edges u) (ht : P t) :
    t∈(arrivals edges true visited frontier).map Walk.tail++visited := by
  rcases h.left u hu with ⟨w,hw,rfl⟩ | hleft
  · refine mem_append.mpr (or_iff_not_imp_right.mpr fun hv => ?_)
    obtain ⟨p,k',hfind⟩ := exists_find_steps hw he
    obtain ⟨hp,he'⟩ := mem_of_find_steps hfind
    refine mem_tails.mpr ⟨hv,p,k',hfind,fun hk => ?_⟩
    obtain ⟨u,t',hu,ht',hu'⟩ := h.rels p hp k' hk
    rcases hP t ht p.tail k' u t' he' hu with rfl | ⟨rfl,hne⟩
    · exact hv ht'
    · exact hu'.elim hv hne
  · exact mem_append_right _ (hleft k t he ht)

theorem Swept.next : Swept edges P s ((arrivals edges true visited frontier).map Walk.tail++visited)
      (arrivals edges true visited frontier) := by
  have hold : ∀ x, x∈visited ∨ x=s →
      x∈(arrivals edges true visited frontier).map Walk.tail++visited ∨ x=s :=
    fun x hx => hx.imp_left (mem_append_right _)
  constructor
  · intro w hw
    exact .inl (mem_append_left _ (mem_map_of_mem hw))
  · intro w hw k hk
    obtain ⟨-,p,k',hfind,hk',hrels⟩ := mem_arrivals.mp hw
    obtain ⟨hp,he⟩ := mem_of_find_steps hfind
    rw [hrels,mem_append,mem_singleton] at hk
    rcases hk with hk | rfl
    · obtain ⟨u,t,hu,ht,hu'⟩ := h.rels p hp k hk
      exact ⟨u,t,hu,mem_append_right _ ht,hold u hu'⟩
    · exact ⟨p.tail,w.tail,he,mem_append_left _ (mem_map_of_mem hw),hold _ (h.tails p hp)⟩
  · intro u hu
    by_cases hnew : u∈(arrivals edges true visited frontier).map Walk.tail
    · obtain ⟨w,hw,rfl⟩ := mem_map.mp hnew
      exact .inl ⟨w,hw,rfl⟩
    · have hu' : u∈visited ∨ u=s := hu.imp_left fun hu => (mem_append.mp hu).resolve_left hnew
      exact .inr fun k t he ht => h.reaches hP hu' he ht

/-- Every node of `P` that a trail reaches in `d + n` steps is found, when those that `d` steps reach have been. -/
theorem Swept.complete (hPs : ∀ t, t≠s → P t)
    (hd : ∀ t rels, Trail edges s t rels → 0<rels.length → rels.length≤d → P t → t∈visited)
    (ht : Trail edges s t rels) (hpos : 0<rels.length) (hlen : rels.length≤d+n) (hPt : P t) :
    t∈visited ∨ t∈(search edges true n visited frontier).map Walk.tail := by
  induction n generalizing d visited frontier with
  | zero => exact .inl (hd t rels ht hpos hlen hPt)
  | succ n ih =>
    have hd' : ∀ t rels, Trail edges s t rels → 0<rels.length → rels.length≤d+1 → P t →
        t∈(arrivals edges true visited frontier).map Walk.tail++visited := by
      intro t rels ht hpos hlen hPt
      cases ht with
      | nil => simp at hpos
      | @snoc u _ rels k hprev he hk =>
        -- the node before is the start or was reached in at most d steps
        have hu : u∈visited ∨ u=s := by
          by_cases hus : u=s
          · exact .inr hus
          · refine .inl (hd u rels hprev ?_ (by simpa using hlen) (hPs u hus))
            cases hprev with
            | nil => exact absurd rfl hus
            | snoc _ _ _ => simp
        exact h.reaches hP hu he hPt
    rcases ih (h.next hP) hd' (by omega) with hv | hs
    · rcases mem_append.mp hv with ha | hv
      · exact .inr (by simp only [search,map_append]; exact mem_append_left _ ha)
      · exact .inl hv
    · exact .inr (by simp only [search,map_append]; exact mem_append_right _ hs)

end

omit [DecidableEq N] [DecidableEq K] in
theorem swept_start : Swept edges P s [] [⟨s,[]⟩] where
  tails := by simp
  rels := by simp
  left := by simp

theorem mem_search_of_trail (hP : ∀ t, P t → ∀ u k u' t', (k,t)∈edges u → (k,t')∈edges u' → t=t' ∨ t=u' ∧ t≠s)
    (hPs : ∀ t, t≠s → P t) (ht : Trail edges s t rels) (hpos : 0<rels.length) (hlen : rels.length≤n) (hPt : P t) :
    t∈(search edges true n [] [⟨s,[]⟩]).map Walk.tail := by
  have hd : ∀ t rels, Trail edges s t rels → 0<rels.length → rels.length≤0 → P t → t∈([] : List N) := by
    omega
  exact ((swept_start.complete hP hPs hd ht hpos (by omega) hPt).resolve_left (not_mem_nil))

end

section

variable (edges) in
/-- The first node that `s` leads to leads back by another edge first. -/
def returns (s : N) : Bool :=
  match edges s with
  | [] => false
  | (k,v)::_ => match (edges v).find? fun e => e.2=s with
    | some (k',_) => k'≠k
    | none => false

variable {s : N} {n : Nat}

/-- Where no edge leads back at once, a search that has visited all neighbours of `s` does not come back. -/
theorem not_mem_search (hsym : ∀ u x j, (j,u)∈edges x → ∀ k, (k,s)∈edges u ↔ (k,u)∈edges s)
    (hvisited : ∀ k v, (k,v)∈edges s → v∈visited)
    (hfrontier : ∀ w ∈ frontier, ∀ k, (k,s)∉edges w.tail) :
    s∉(search edges true n visited frontier).map Walk.tail := by
  induction n generalizing visited frontier with
  | zero => simp [search]
  | succ n ih =>
    simp only [search,map_append,mem_append,not_or]
    constructor
    · intro hs
      obtain ⟨-,p,k,hfind,-⟩ := mem_tails.mp hs
      obtain ⟨hp,he⟩ := mem_of_find_steps hfind
      exact hfrontier p hp k he
    · refine ih (fun k v he => mem_append_right _ (hvisited k v he)) fun w hw k he => ?_
      obtain ⟨hv,p,j,hfind,-,-⟩ := mem_arrivals.mp hw
      exact hv (hvisited k w.tail ((hsym w.tail _ j (mem_of_find_steps hfind).2 k).mp he))

theorem arrivals_start : ∀ t, t∈(arrivals edges true [] [⟨s,[]⟩]).map Walk.tail ↔ ∃ k, (k,t)∈edges s := by
  intro t
  rw [mem_tails]
  constructor
  · rintro ⟨-,p,k,hfind,-⟩
    obtain ⟨hp,he⟩ := mem_of_find_steps hfind
    cases mem_singleton.mp hp
    exact ⟨k,he⟩
  · rintro ⟨k,he⟩
    obtain ⟨p,k',hfind⟩ := exists_find_steps (mem_singleton_self (⟨s,[]⟩ : Walk N K)) he
    obtain ⟨hp,-⟩ := mem_of_find_steps hfind
    cases mem_singleton.mp hp
    exact ⟨not_mem_nil,_,k',hfind,not_mem_nil⟩

theorem foldl_arrive_prefix (prune : Bool) (visited : List N) (l : List (Walk N K × K × N)) (st : Level N K) :
    ∃ more, (l.foldl (arrive prune visited) st).walks=st.walks++more := by
  induction l generalizing st with
  | nil => exact ⟨[],by simp⟩
  | cons a l ih =>
    obtain ⟨more,hmore⟩ := ih (arrive prune visited st a)
    rw [foldl_cons,hmore]
    unfold arrive
    split_ifs
    · exact ⟨more,rfl⟩
    · exact ⟨more,rfl⟩
    · exact ⟨_,append_assoc _ _ _⟩

/-- Of a node without an edge to itself: it is found again only from the first node it leads to, when that one
leads back by another edge first. -/
theorem mem_search_self (hsym : ∀ u x j, (j,u)∈edges x → ∀ k, (k,s)∈edges u ↔ (k,u)∈edges s)
    (hloop : ∀ k, (k,s)∉edges s) :
    s∈(search edges true n [] [⟨s,[]⟩]).map Walk.tail ↔ 2≤n ∧ returns edges s=true := by
  have hfirst : s∉(arrivals edges true [] [(⟨s,[]⟩ : Walk N K)]).map Walk.tail := by
    rw [arrivals_start]
    exact fun ⟨k,hk⟩ => hloop k hk
  match n with
  | 0 => simp [search]
  | 1 => simpa [search] using hfirst
  | n+2 =>
    simp only [search,map_append,mem_append,hfirst,false_or,append_nil]
    generalize hwalks : arrivals edges true [] [(⟨s,[]⟩ : Walk N K)]=walks at hfirst
    have hnbrs : ∀ k v, (k,v)∈edges s → v∈walks.map Walk.tail := by
      intro k v he
      rw [← hwalks,arrivals_start]
      exact ⟨k,he⟩
    have hlater : s∉(search edges true n ((arrivals edges true (walks.map Walk.tail) walks).map Walk.tail ++
        walks.map Walk.tail) (arrivals edges true (walks.map Walk.tail) walks)).map Walk.tail := by
      refine not_mem_search hsym (fun k v he => mem_append_right _ (hnbrs k v he)) fun w hw k he => ?_
      obtain ⟨hv,p,j,hfind,-,-⟩ := mem_arrivals.mp hw
      exact hv (hnbrs k w.tail ((hsym w.tail _ j (mem_of_find_steps hfind).2 k).mp he))
    simp only [hlater,or_false,mem_tails,hfirst,not_false_eq_true,true_and]
    cases hs : edges s with
    | nil =>
      have : walks=[] := by
        rw [← hwalks]
        simp [arrivals,steps,hs]
      simp [this,steps,returns,hs]
    | cons e rest =>
      obtain ⟨k,v⟩ := e
      -- the walk to `v` is the first one of its level, so that its edges are looked at first
      obtain ⟨more,hmore⟩ : ∃ more, walks=⟨v,[k]⟩::more := by
        obtain ⟨more,hmore⟩ := foldl_arrive_prefix true [] (rest.map fun e => ((⟨s,[]⟩ : Walk N K),e)) ⟨[v],[⟨v,[k]⟩]⟩
        refine ⟨more,?_⟩
        rw [← hwalks,arrivals,steps,flatMap_singleton,hs,map_cons,foldl_cons]
        simpa [arrive] using hmore
      have hout : (k,v)∈edges s := by simp [hs]
      have hback : (k,s)∈edges v := (hsym v s k hout k).mpr hout
      obtain ⟨⟨k',t⟩,hfind⟩ := Option.isSome_iff_exists.mp
        (find?_isSome.mpr ⟨(k,s),hback,by simp⟩ : ((edges v).find? fun e => e.2=s).isSome)
      have ht : t=s := by simpa using find?_some hfind
      subst ht
      have hsteps : (steps edges walks).find? (fun a => a.2.2=t)=some (⟨v,[k]⟩,k',t) := by
        rw [hmore,steps,flatMap_cons,find?_append,find?_map]
        have : ((fun a : Walk N K × K × N => decide (a.2.2=t)) ∘ fun e => ((⟨v,[k]⟩ : Walk N K),e)) =
            fun e : K × N => decide (e.2=t) := rfl
        rw [this,hfind]
        rfl
      rw [hsteps]
      simp only [returns,hs,hfind]
      constructor
      · rintro ⟨p,k'',heq,hk⟩
        cases heq
        simpa using hk
      · intro h
        exact ⟨_,_,rfl,by simpa using h⟩

theorem mem_search_loop (h : (k,s)∈edges s) (hn : 0<n) : s∈(search edges true n [] [⟨s,[]⟩]).map Walk.tail := by
  cases n with
  | zero => omega
  | succ n =>
    simp only [search,map_append]
    exact mem_append_left _ ((arrivals_start s).mpr ⟨k,h⟩)

end

section

variable (edges) in
/-- The walks that a walk goes on as. -/
def onward (w : Walk N K) : List (Walk N K) :=
  (edges w.tail).filterMap fun e => if e.1∈w.rels then none else some ⟨e.2,w.rels++[e.1]⟩

variable {visited old : List N} {frontier : List (Walk N K)} {v w : Walk N K} {n : Nat}

omit [DecidableEq N] in
theorem mem_onward : v∈onward edges w ↔ ∃ k, (k,v.tail)∈edges w.tail ∧ k∉w.rels ∧ v.rels=w.rels++[k] := by
  rw [onward,mem_filterMap]
  constructor
  · rintro ⟨⟨k,t⟩,he,hsome⟩
    split_ifs at hsome with hk
    cases hsome
    exact ⟨k,he,hk,rfl⟩
  · rintro ⟨k,he,hk,hrels⟩
    exact ⟨(k,v.tail),he,by rw [if_neg hk,← hrels]⟩

theorem arrivals_all (visited : List N) (frontier : List (Walk N K)) :
    arrivals edges false visited frontier=frontier.flatMap (onward edges) := by
  have hfold : ∀ (l : List (Walk N K × K × N)) st, (l.foldl (arrive false visited) st).walks =
      st.walks++l.filterMap fun a => if a.2.1∈a.1.rels then none else some ⟨a.2.2,a.1.rels++[a.2.1]⟩ := by
    intro l
    induction l with
    | nil => simp
    | cons a l ih =>
      obtain ⟨p,k,t⟩ := a
      intro st
      rw [foldl_cons,ih]
      by_cases hk : k∈p.rels
      · rw [arrive_block rfl hk]
        simp [hk]
      · rw [arrive_push rfl hk]
        simp [hk]
  rw [arrivals,hfold,nil_append,steps,filterMap_flatMap]
  refine flatMap_congr fun w _ => ?_
  rw [filterMap_map]
  rfl

theorem arrivals_firsts (hblocked : ∀ w ∈ frontier, ∀ k t, (k,t)∈edges w.tail → k∈w.rels → t∈visited) :
    arrivals edges true visited frontier=firsts Walk.tail visited (frontier.flatMap (onward edges)) := by
  have hfold : ∀ (l : List (Walk N K × K × N)) st, (∀ a ∈ l, a.2.1∈a.1.rels → a.2.2∈visited) →
      (l.foldl (arrive true visited) st).walks=st.walks++firsts Walk.tail (st.seen++visited) (l.filterMap fun a =>
        if a.2.1∈a.1.rels then none else some ⟨a.2.2,a.1.rels++[a.2.1]⟩) := by
    intro l
    induction l with
    | nil => simp [firsts]
    | cons a l ih =>
      obtain ⟨p,k,t⟩ := a
      intro st hl
      obtain ⟨hfirst,hl⟩ := forall_mem_cons.mp hl
      rw [foldl_cons,ih _ hl]
      by_cases hskip : t∈st.seen++visited
      · have hskip' : (true&&(visited.contains t||st.seen.contains t))=true := by simpa [or_comm] using hskip
        rw [arrive_skip hskip']
        by_cases hk : k∈p.rels
        · simp [hk]
        · rw [filterMap_cons_some (b := ⟨t,p.rels++[k]⟩) (by simp [hk]),firsts,if_pos hskip]
      · have hskip' : (true&&(visited.contains t||st.seen.contains t))=false := by
          rw [mem_append,not_or] at hskip
          simp [hskip.1,hskip.2]
        have hk : k∉p.rels := fun hk => hskip (mem_append_right _ (hfirst hk))
        rw [arrive_push hskip' hk,filterMap_cons_some (b := ⟨t,p.rels++[k]⟩) (by simp [hk]),firsts,if_neg hskip]
        simp
  have hsteps : ∀ a ∈ steps edges frontier, a.2.1∈a.1.rels → a.2.2∈visited := by
    rintro ⟨w,k,t⟩ ha hk
    obtain ⟨hw,he⟩ := (mem_steps edges).mp ha
    exact hblocked w hw k t he hk
  rw [arrivals,hfold _ _ hsteps,nil_append,nil_append,steps,filterMap_flatMap]
  refine congrArg (firsts Walk.tail visited) (flatMap_congr fun w _ => ?_)
  rw [filterMap_map]
  rfl

/-- Where an edge leads to one node only, the pruned search finds the first walk to every node, in the order of all
walks. `old` are the nodes that were left before the frontier. -/
theorem firsts_search (hedges : ∀ u k t u' t', (k,t)∈edges u → (k,t')∈edges u' → t=t')
    (hold : ∀ u ∈ old, ∀ k t, (k,t)∈edges u → t∈visited)
    (hrels : ∀ w ∈ frontier, ∀ k ∈ w.rels, ∃ u t, (k,t)∈edges u ∧ t∈visited)
    (hvisited : ∀ u ∈ visited, u∈old ∨ ∃ w ∈ frontier, w.tail=u) (visited' : List N) :
    firsts Walk.tail visited (search edges false n visited' frontier) =
      search edges true n visited (firsts Walk.tail old frontier) := by
  induction n generalizing visited old frontier visited' with
  | zero => rfl
  | succ n ih =>
    have hblocked : ∀ w ∈ frontier, ∀ k t, (k,t)∈edges w.tail → k∈w.rels → t∈visited := by
      intro w hw k t he hk
      obtain ⟨u,t',he',ht'⟩ := hrels w hw k hk
      rwa [hedges _ k t u t' he he']
    have hnew : ∀ w ∈ frontier, ∀ k t, (k,t)∈edges w.tail → t∈(onward edges w).map Walk.tail++visited := by
      intro w hw k t he
      by_cases hk : k∈w.rels
      · exact mem_append_right _ (hblocked w hw k t he hk)
      · exact mem_append_left _ (mem_map.mpr ⟨⟨t,w.rels++[k]⟩,mem_onward.mpr ⟨k,he,hk,rfl⟩,rfl⟩)
    generalize hall : frontier.flatMap (onward edges)=all
    have harrive : arrivals edges true visited (firsts Walk.tail old frontier)=firsts Walk.tail visited all := by
      rw [arrivals_firsts fun w hw => hblocked w ((firsts_sublist _ _).subset hw),← hall]
      refine (firsts_flatMap (fun w _ hw v hv => ?_) fun w hw w' _ heq v hv => ?_).symm
      · obtain ⟨k,he,-⟩ := mem_onward.mp hv
        exact hold _ hw k _ he
      · obtain ⟨k,he,-⟩ := mem_onward.mp hv
        exact hnew w hw k _ (heq ▸ he)
    have hmem : ∀ t, t∈(firsts Walk.tail visited all).map Walk.tail++visited ↔ t∈all.map Walk.tail++visited :=
      fun t => mem_map_firsts_append
    have hleft : ∀ w ∈ frontier, ∀ k t, (k,t)∈edges w.tail →
        t∈(firsts Walk.tail visited all).map Walk.tail++visited := by
      intro w hw k t he
      rw [hmem,← hall]
      refine (mem_append.mp (hnew w hw k t he)).elim (fun ht => mem_append_left _ ?_) (mem_append_right _)
      obtain ⟨v,hv,rfl⟩ := mem_map.mp ht
      exact mem_map_of_mem (mem_flatMap.mpr ⟨w,hw,hv⟩)
    rw [search,search,arrivals_all,hall,firsts_append,harrive]
    refine congrArg (firsts Walk.tail visited all++·)
      ((firsts_congr fun w _ => (hmem w.tail).symm).trans (ih ?_ ?_ ?_ _))
    · intro u hu k t he
      rcases hvisited u hu with hu | ⟨w,hw,rfl⟩
      · exact mem_append_right _ (hold u hu k t he)
      · exact hleft w hw k t he
    · intro v hv k hk
      rw [← hall] at hv
      obtain ⟨w,hw,hv⟩ := mem_flatMap.mp hv
      obtain ⟨k',he,-,hrels'⟩ := mem_onward.mp hv
      rw [hrels',mem_append,mem_singleton] at hk
      rcases hk with hk | rfl
      · obtain ⟨u,t,hu,ht⟩ := hrels w hw k hk
        exact ⟨u,t,hu,mem_append_right _ ht⟩
      · exact ⟨w.tail,v.tail,he,hleft w hw k v.tail he⟩
    · intro u hu
      rcases mem_append.mp hu with hu | hu
      · obtain ⟨w,hw,rfl⟩ := mem_map.mp hu
        exact .inr ⟨w,(firsts_sublist _ _).subset hw,rfl⟩
      · exact .inl hu

end

theorem search_nil (prune : Bool) (n : Nat) (visited : List N) : search edges prune n visited []=[] := by
  induction n generalizing visited with
  | zero => rfl
  | succ n ih => simp [search,arrivals,steps,ih]

end
end
end NamiDB.Lib
