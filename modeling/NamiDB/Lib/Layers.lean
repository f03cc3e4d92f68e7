import NamiDB.Lib.Firsts
import NamiDB.Lib.Routes

/-! A search in layers. From each layer routes go on to the nodes that were not reached before, all of them or the
first one to each node. What it finds are the shortest routes. -/
namespace NamiDB.Lib
open List

section

variable {N K : Type*}

/-- A layer holds shortest routes of its length, to every node at this distance. -/
structure Layered (E : N → K → N → Prop) (s : N) (first : Bool) (d : Nat) (visited : List N)
    (layer : List (List (K × N))) : Prop where
  visited : ∀ x, x∈visited ↔ ∃ n ≤ d, Connects E s x n
  sound : ∀ hops ∈ layer, hops.length=d ∧ Shortest E s hops (endOf s hops)
  cover : ∀ hops x, Shortest E s hops x → hops.length=d → ∃ hops' ∈ layer, endOf s hops'=x
  all : first=false → ∀ hops x, Shortest E s hops x → hops.length=d → hops∈layer

theorem layered_start (E : N → K → N → Prop) (s : N) (first : Bool) : Layered E s first 0 [s] [[]] := by
  have hnil : ∀ (hops : List (K × N)) x, Shortest E s hops x → hops.length=0 → hops=[] ∧ s=x := by
    rintro hops x ⟨hroute,-⟩ hlen
    obtain rfl := length_eq_zero_iff.mp hlen
    cases hroute
    exact ⟨rfl,rfl⟩
  refine ⟨fun x => ?_,fun hops hmem => ?_,fun hops x hs hlen => ?_,fun _ hops x hs hlen => ?_⟩
  · rw [mem_singleton]
    constructor
    · rintro rfl
      exact ⟨0,le_rfl,connects_zero.mpr rfl⟩
    · rintro ⟨n,hn,hconnects⟩
      obtain rfl := Nat.le_zero.mp hn
      exact (connects_zero.mp hconnects).symm
  · obtain rfl := mem_singleton.mp hmem
    exact ⟨rfl,.nil s,fun _ _ => Nat.zero_le _⟩
  · exact ⟨[],mem_singleton_self _,(hnil hops x hs hlen).2⟩
  · rw [(hnil hops x hs hlen).1]
    exact mem_singleton_self _

end

section

variable {N K : Type*} [DecidableEq N] (edges : N → List (K × N)) (allowed : List (K × N) → K × N → Bool) (s : N)

/-- The routes of a layer, each with one more hop to a node that was not reached. -/
def goOn (visited : List N) (layer : List (List (K × N))) : List (List (K × N)) :=
  layer.flatMap fun hops =>
    ((edges (endOf s hops)).filter fun h => allowed hops h && !visited.contains h.2).map fun h => hops++[h]

variable (first : Bool)

def nextLayer (visited : List N) (layer : List (List (K × N))) : List (List (K × N)) :=
  if first then firsts (endOf s) [] (goOn edges allowed s visited layer) else goOn edges allowed s visited layer

def layersFrom : Nat → List N → List (List (K × N)) → List (List (K × N))
  | 0, _, _ => []
  | n+1, visited, layer =>
    let next := nextLayer edges allowed s first visited layer
    next++layersFrom n (next.map (endOf s)++visited) next

def routesTo (n : Nat) (t : N) : List (List (K × N)) :=
  (layersFrom edges allowed s first n [s] [[]]).filter fun hops => endOf s hops=t

variable {edges allowed s first} {E : N → K → N → Prop} {visited : List N} {layer : List (List (K × N))}
  {hops : List (K × N)} {d n : Nat} {t : N}

theorem mem_goOn : hops∈goOn edges allowed s visited layer ↔ ∃ before ∈ layer, ∃ k v,
    (k,v)∈edges (endOf s before) ∧ allowed before (k,v)=true ∧ v∉visited ∧ hops=before++[(k,v)] := by
  simp only [goOn,mem_flatMap,mem_map,mem_filter,Bool.and_eq_true,Bool.not_eq_true',
    contains_eq_mem,decide_eq_false_iff_not]
  constructor
  · rintro ⟨before,hbefore,⟨k,v⟩,⟨he,hallowed,hv⟩,rfl⟩
    exact ⟨before,hbefore,k,v,he,hallowed,hv,rfl⟩
  · rintro ⟨before,hbefore,k,v,he,hallowed,hv,rfl⟩
    exact ⟨before,hbefore,(k,v),⟨he,hallowed,hv⟩,rfl⟩

theorem nextLayer_sublist : (nextLayer edges allowed s first visited layer).Sublist
    (goOn edges allowed s visited layer) := by
  unfold nextLayer
  split
  · exact firsts_sublist [] _
  · exact .refl _

section

variable (hE : ∀ u k v, (k,v)∈edges u ↔ E u k v)
  (hallowed : ∀ hops h, Shortest E s (hops++[h]) h.2 → allowed hops h=true)

include hE in
theorem Layered.goOn_sound (h : Layered E s first d visited layer) (hmem : hops∈goOn edges allowed s visited layer) :
    hops.length=d+1 ∧ Shortest E s hops (endOf s hops) ∧ endOf s hops∉visited := by
  obtain ⟨before,hbefore,k,v,he,-,hv,rfl⟩ := mem_goOn.mp hmem
  obtain ⟨hlen,hshortest⟩ := h.sound before hbefore
  have hlength : (before++[(k,v)]).length=d+1 := by rw [length_append,hlen,length_singleton]
  rw [endOf_concat]
  refine ⟨hlength,⟨hshortest.1.snoc ((hE _ _ _).mp he),fun hops' h' => ?_⟩,hv⟩
  by_contra hlt
  exact hv ((h.visited v).mpr ⟨hops'.length,by omega,hops',h',rfl⟩)

include hE hallowed in
theorem Layered.goOn_complete (h : Layered E s first d visited layer) {x : N} (hs : Shortest E s hops x)
    (hlen : hops.length=d+1) : ∃ hops' ∈ goOn edges allowed s visited layer, endOf s hops'=x ∧
      (first=false → hops'=hops) := by
  obtain ⟨before,⟨k,v⟩,rfl⟩ : ∃ before h, hops=before++[h] :=
    ⟨_,_,(dropLast_append_getLast (ne_nil_of_length_eq_add_one hlen)).symm⟩
  obtain ⟨rfl,u,hu,he⟩ := hs.of_concat
  have hbefore : before.length=d := by simpa using hlen
  have hv : v∉visited := by
    intro hv
    obtain ⟨n,hn,hops',hroute,rfl⟩ := (h.visited v).mp hv
    have := hs.2 hops' hroute
    omega
  -- any shortest route to the node before the last one will do
  have hextend : ∀ before' ∈ layer, endOf s before'=u →
      before'++[(k,v)]∈goOn edges allowed s visited layer := by
    rintro before' hmem rfl
    obtain ⟨hlen',hshortest⟩ := h.sound before' hmem
    refine mem_goOn.mpr ⟨before',hmem,k,v,(hE _ _ _).mpr he,hallowed _ _ ⟨hshortest.1.snoc he,?_⟩,hv,rfl⟩
    intro hops' h'
    have hleast := hs.2 hops' h'
    simp only [length_append,length_singleton] at hleast ⊢
    omega
  cases first with
  | true =>
    obtain ⟨before',hmem,hend⟩ := h.cover before u hu hbefore
    exact ⟨_,hextend before' hmem hend,endOf_concat _ _ _,nofun⟩
  | false =>
    exact ⟨_,hextend before (h.all rfl before u hu hbefore) hu.1.endOf_eq,endOf_concat _ _ _,fun _ => rfl⟩

include hE hallowed in
theorem Layered.next (h : Layered E s first d visited layer) :
    Layered E s first (d+1) ((nextLayer edges allowed s first visited layer).map (endOf s)++visited)
      (nextLayer edges allowed s first visited layer) := by
  have hsound : ∀ hops ∈ nextLayer edges allowed s first visited layer,
      hops.length=d+1 ∧ Shortest E s hops (endOf s hops) := fun hops hmem =>
    ⟨(h.goOn_sound hE (nextLayer_sublist.subset hmem)).1,(h.goOn_sound hE (nextLayer_sublist.subset hmem)).2.1⟩
  have hcover : ∀ hops x, Shortest E s hops x → hops.length=d+1 →
      ∃ hops' ∈ nextLayer edges allowed s first visited layer, endOf s hops'=x ∧ (first=false → hops'=hops) := by
    intro hops x hs hlen
    obtain ⟨hops',hmem,hend,hsame⟩ := h.goOn_complete hE hallowed hs hlen
    unfold nextLayer
    cases first with
    | true =>
      obtain ⟨hops'',hmem'',hend''⟩ := exists_mem_firsts (f := endOf s) hmem not_mem_nil
      exact ⟨hops'',hmem'',hend''.trans hend,nofun⟩
    | false => exact ⟨hops',hmem,hend,hsame⟩
  refine ⟨fun x => ?_,hsound,fun hops x hs hlen => ?_,fun hfirst hops x hs hlen => ?_⟩
  · rw [mem_append,h.visited]
    constructor
    · rintro (hx | ⟨n,hn,hconnects⟩)
      · obtain ⟨hops,hmem,rfl⟩ := mem_map.mp hx
        obtain ⟨hlen,hs⟩ := hsound hops hmem
        exact ⟨d+1,le_rfl,hops,hs.1,hlen⟩
      · exact ⟨n,by omega,hconnects⟩
    · rintro ⟨n,hn,hops,hroute,rfl⟩
      by_cases hnear : ∃ n ≤ d, Connects E s x n
      · exact .inr hnear
      · have hshortest : Shortest E s hops x := by
          refine ⟨hroute,fun hops' h' => ?_⟩
          by_contra hlt
          exact hnear ⟨hops'.length,by omega,hops',h',rfl⟩
        have hlen : hops.length=d+1 := by
          by_contra hne
          exact hnear ⟨hops.length,by omega,hops,hroute,rfl⟩
        obtain ⟨hops',hmem,hend,-⟩ := hcover hops x hshortest hlen
        exact .inl (mem_map.mpr ⟨hops',hmem,hend⟩)
  · obtain ⟨hops',hmem,hend,-⟩ := hcover hops x hs hlen
    exact ⟨hops',hmem,hend⟩
  · obtain ⟨hops',hmem,-,hsame⟩ := hcover hops x hs hlen
    exact hsame hfirst ▸ hmem

include hE hallowed in
theorem Layered.layersFrom_sound (h : Layered E s first d visited layer)
    (hmem : hops∈layersFrom edges allowed s first n visited layer) :
    d<hops.length ∧ hops.length≤d+n ∧ Shortest E s hops (endOf s hops) := by
  induction n generalizing d visited layer with
  | zero => cases hmem
  | succ n ih =>
    have hnext := h.next hE hallowed
    rcases mem_append.mp hmem with hmem | hmem
    · obtain ⟨hlen,hs⟩ := hnext.sound hops hmem
      exact ⟨by omega,by omega,hs⟩
    · obtain ⟨hlt,hle,hs⟩ := ih hnext hmem
      exact ⟨by omega,by omega,hs⟩

include hE hallowed in
theorem Layered.layersFrom_complete (h : Layered E s first d visited layer) {x : N} (hs : Shortest E s hops x)
    (hlt : d<hops.length) (hle : hops.length≤d+n) :
    ∃ hops' ∈ layersFrom edges allowed s first n visited layer, endOf s hops'=x ∧ (first=false → hops'=hops) := by
  induction n generalizing d visited layer with
  | zero => omega
  | succ n ih =>
    have hnext := h.next hE hallowed
    by_cases hlen : hops.length=d+1
    · obtain ⟨hops',hmem,hend⟩ := hnext.cover hops x hs hlen
      cases first with
      | true => exact ⟨hops',mem_append_left _ hmem,hend,nofun⟩
      | false =>
        exact ⟨hops,mem_append_left _ (hnext.all rfl hops x hs hlen),hs.1.endOf_eq,fun _ => rfl⟩
    · obtain ⟨hops',hmem,hend,hsame⟩ := ih hnext (by omega) (by omega)
      exact ⟨hops',mem_append_right _ hmem,hend,hsame⟩

end

theorem endOf_layersFrom (hmem : hops∈layersFrom edges allowed s first n visited layer) : endOf s hops∉visited := by
  induction n generalizing visited layer with
  | zero => cases hmem
  | succ n ih =>
    rcases mem_append.mp hmem with hmem | hmem
    · obtain ⟨before,-,k,v,-,-,hv,rfl⟩ := mem_goOn.mp (nextLayer_sublist.subset hmem)
      rw [endOf_concat]
      exact hv
    · exact fun hvisited => ih hmem (mem_append_right _ hvisited)

theorem layersFrom_nil : layersFrom edges allowed s first n visited []=[] := by
  induction n generalizing visited with
  | zero => rfl
  | succ n ih =>
    have hnext : nextLayer edges allowed s first visited []=[] := by
      unfold nextLayer
      split <;> rfl
    rw [layersFrom,hnext,ih]
    rfl

theorem nodup_goOn (hedges : ∀ u, (edges u).Nodup) (hlayer : layer.Nodup) :
    (goOn edges allowed s visited layer).Nodup := by
  refine nodup_flatMap.mpr ⟨fun hops _ => ?_,hlayer.imp fun {hops hops'} hne => ?_⟩
  · refine .map (fun a b hab => ?_) ((hedges _).filter _)
    simpa using hab
  · intro w hw hw'
    obtain ⟨h,-,rfl⟩ := mem_map.mp hw
    obtain ⟨h',-,heq⟩ := mem_map.mp hw'
    exact hne (append_inj_left' heq.symm rfl)

theorem nodup_layersFrom (hedges : ∀ u, (edges u).Nodup) (hlayer : layer.Nodup) :
    (layersFrom edges allowed s first n visited layer).Nodup := by
  induction n generalizing visited layer with
  | zero => exact nodup_nil
  | succ n ih =>
    have hnext : (nextLayer edges allowed s first visited layer).Nodup :=
      (nodup_goOn hedges hlayer).sublist nextLayer_sublist
    refine nodup_append.mpr ⟨hnext,ih hnext,?_⟩
    rintro hops hmem hops' hmem' rfl
    exact endOf_layersFrom hmem' (mem_append_left _ (mem_map_of_mem hmem))

theorem nodup_ends : ((layersFrom edges allowed s true n visited layer).map (endOf s)).Nodup := by
  induction n generalizing visited layer with
  | zero => exact nodup_nil
  | succ n ih =>
    rw [layersFrom,map_append]
    refine nodup_append.mpr ⟨nodup_firsts [] _,ih,?_⟩
    rintro x hx _ hx' rfl
    obtain ⟨hops,hmem,rfl⟩ := mem_map.mp hx'
    exact endOf_layersFrom hmem (mem_append_left _ hx)

section

variable (hE : ∀ u k v, (k,v)∈edges u ↔ E u k v)
  (hallowed : ∀ hops h, Shortest E s (hops++[h]) h.2 → allowed hops h=true)

include hE hallowed

theorem shortest_of_mem_routesTo (hmem : hops∈routesTo edges allowed s first n t) :
    Shortest E s hops t ∧ hops.length≤n := by
  obtain ⟨hmem,hend⟩ := mem_filter.mp hmem
  obtain ⟨-,hle,hs⟩ := (layered_start E s first).layersFrom_sound hE hallowed hmem
  rw [← of_decide_eq_true hend]
  exact ⟨hs,by omega⟩

theorem exists_mem_routesTo (hne : s≠t) (hs : Shortest E s hops t) (hle : hops.length≤n) :
    ∃ hops' ∈ routesTo edges allowed s first n t, first=false → hops'=hops := by
  have hpos : 0<hops.length := by
    refine length_pos_iff.mpr ?_
    rintro rfl
    obtain ⟨hroute,-⟩ := hs
    cases hroute
    exact hne rfl
  have hstart := layered_start E s first
  obtain ⟨hops',hmem,hend,hsame⟩ := hstart.layersFrom_complete hE hallowed hs hpos ((Nat.zero_add n).symm ▸ hle)
  exact ⟨hops',mem_filter.mpr ⟨hmem,decide_eq_true hend⟩,hsame⟩

theorem mem_routesTo_all (hne : s≠t) : hops∈routesTo edges allowed s false n t ↔
    Shortest E s hops t ∧ hops.length≤n := by
  constructor
  · exact shortest_of_mem_routesTo hE hallowed
  · rintro ⟨hs,hle⟩
    obtain ⟨hops',hmem,hsame⟩ := exists_mem_routesTo hE hallowed hne hs hle
    exact hsame rfl ▸ hmem

theorem routesTo_first (hne : s≠t) (hs : Shortest E s hops t) (hle : hops.length≤n) :
    ∃ hops', routesTo edges allowed s true n t=[hops'] ∧ Shortest E s hops' t := by
  obtain ⟨hops',hmem,-⟩ : ∃ hops' ∈ routesTo edges allowed s true n t, _ :=
    exists_mem_routesTo hE hallowed hne hs hle
  refine ⟨hops',?_,(shortest_of_mem_routesTo hE hallowed hmem).1⟩
  obtain ⟨hlayers,hend⟩ := mem_filter.mp hmem
  exact filter_key_eq nodup_ends hlayers (of_decide_eq_true hend)

end
end
end NamiDB.Lib
