import NamiDB.Cypher.EndpointSearch
import NamiDB.Cypher.Shortest
import NamiDB.Lib.Routes

/-! The search from both ends of a pair finds a shortest path whenever there is one within the bound. -/
namespace NamiDB.Cypher
open Query Storage Lib List Option

section

variable {graph : Graph} {edgeTypes : List String} {direction : RelationshipDirection} {u v : NodeId} {k : EdgeKey}

/-- A stored relationship of one of the types that leads from one node to the other in the direction of the
pattern. -/
def LeadsTo (graph : Graph) (edgeTypes : List String) (direction : RelationshipDirection) (u : NodeId) (k : EdgeKey)
    (v : NodeId) : Prop :=
  k∈graph.edges ∧ k.edgeType∈edgeTypes ∧ Joins direction k u v

theorem leadsTo_iff : LeadsTo graph edgeTypes direction u k v ↔
    k∈neighboursOfAny graph edgeTypes direction u ∧ partnerId k direction u=v :=
  mem_neighboursOfAny.symm

theorem leadsTo_flip : LeadsTo graph edgeTypes (flipDirection direction) =
    Reversed (LeadsTo graph edgeTypes direction) := by
  funext u k v
  cases direction with
  | right => simp only [LeadsTo,Reversed,flipDirection,Joins,and_comm (a := k.dst=u)]
  | left => simp only [LeadsTo,Reversed,flipDirection,Joins,and_comm (a := k.src=u)]
  | both =>
    simp only [LeadsTo,Reversed,flipDirection,Joins,and_comm (a := k.dst=u),and_comm (a := k.src=u),or_comm]

theorem leadsTo_ends (h : LeadsTo graph edgeTypes direction u k v) (h' : LeadsTo graph edgeTypes direction u' k v') :
    u=u' ∨ u=v' := by
  obtain ⟨-,-,hj⟩ := h
  obtain ⟨-,-,hj'⟩ := h'
  cases direction with
  | right | left => exact .inl (hj.1.symm.trans hj'.1)
  | both =>
    rcases hj with ⟨h,-⟩ | ⟨h,-⟩
    · rcases hj' with ⟨h',-⟩ | ⟨-,h'⟩
      · exact .inl (h.symm.trans h')
      · exact .inr (h.symm.trans h')
    · rcases hj' with ⟨-,h'⟩ | ⟨h',-⟩
      · exact .inr (h.symm.trans h')
      · exact .inl (h.symm.trans h')

end

section

variable {direction : RelationshipDirection} {side other : Side} {best : Option (Nat × NodeId)}
  {l : List (NodeId × EdgeKey)} {st : Meeting}

theorem lookup_cons_ite (x k : NodeId) (b : β) (l : List (NodeId × β)) :
    ((k,b)::l).lookup x=if x=k then some b else l.lookup x := by
  by_cases hx : x=k
  · rw [if_pos hx,hx,lookup_cons_self]
  · rw [if_neg hx,lookup_cons,beq_eq_false_iff_ne.mpr hx]

def Reached (direction : RelationshipDirection) (l : List (NodeId × EdgeKey)) (x : NodeId) : Prop :=
  ∃ a ∈ l, partnerId a.2 direction a.1=x

/-- How far a side has come with a level, after the hops `l`. -/
structure Arrived (direction : RelationshipDirection) (side : Side) (l : List (NodeId × EdgeKey)) (st : Meeting) :
    Prop where
  depth : st.side.depth=side.depth
  visited : ∀ x d, st.side.visited.lookup x=some d ↔ side.visited.lookup x=some d ∨
    side.visited.lookup x=none ∧ d=side.depth+1 ∧ Reached direction l x
  next : ∀ x, x∈st.next ↔ side.visited.lookup x=none ∧ Reached direction l x
  kept : ∀ x, side.visited.lookup x≠none → st.side.parents.lookup x=side.parents.lookup x
  parents : ∀ x, side.visited.lookup x=none → Reached direction l x →
    ∃ a ∈ l, partnerId a.2 direction a.1=x ∧ st.side.parents.lookup x=some a

theorem reached_concat : Reached direction (l++[a]) x ↔ Reached direction l x ∨ partnerId a.2 direction a.1=x := by
  simp [Reached]

theorem Arrived.step (h : Arrived direction side l st)
    (a : NodeId × EdgeKey) : Arrived direction side (l++[a]) (arriveFrom other direction st a) := by
  have hnone : st.side.visited.lookup (partnerId a.2 direction a.1)=none ↔
      side.visited.lookup (partnerId a.2 direction a.1)=none ∧ ¬Reached direction l (partnerId a.2 direction a.1) := by
    constructor
    · intro hx
      have hside : side.visited.lookup (partnerId a.2 direction a.1)=none := by
        rw [eq_none_iff_forall_not_mem]
        intro d hd
        rw [(h.visited _ d).mpr (.inl hd)] at hx
        cases hx
      refine ⟨hside,fun hreached => ?_⟩
      rw [(h.visited _ _).mpr (.inr ⟨hside,rfl,hreached⟩)] at hx
      cases hx
    · rintro ⟨hside,hreached⟩
      rw [eq_none_iff_forall_not_mem]
      intro d hd
      rcases (h.visited _ d).mp hd with hd | ⟨-,-,hd⟩
      · rw [hside] at hd
        cases hd
      · exact hreached hd
  unfold arriveFrom
  dsimp only
  generalize hx0 : partnerId a.2 direction a.1=x0 at hnone ⊢
  have hconcat : ∀ x, Reached direction (l++[a]) x ↔ Reached direction l x ∨ x0=x := by
    intro x
    rw [reached_concat,hx0]
  split
  · rename_i hsome
    -- The node was there before, so that the hop adds nothing.
    have hold : ∀ x, side.visited.lookup x=none → (Reached direction (l++[a]) x ↔ Reached direction l x) := by
      intro x hx
      rw [hconcat]
      refine or_iff_left_of_imp ?_
      rintro rfl
      by_contra hreached
      rw [hnone.mpr ⟨hx,hreached⟩] at hsome
      cases hsome
    refine ⟨h.depth,fun x d => ?_,fun x => ?_,h.kept,fun x hx hreached => ?_⟩
    · rw [h.visited]
      exact or_congr_right (and_congr_right fun hx => by rw [hold x hx])
    · rw [h.next]
      exact and_congr_right fun hx => by rw [hold x hx]
    · obtain ⟨b,hb,heq,hparent⟩ := h.parents x hx ((hold x hx).mp hreached)
      exact ⟨b,mem_append_left _ hb,heq,hparent⟩
  · rename_i hnew
    rw [Bool.not_eq_true,isSome_eq_false_iff,isNone_iff_eq_none] at hnew
    obtain ⟨hside,hfresh⟩ := hnone.mp hnew
    refine ⟨h.depth,fun x d => ?_,fun x => ?_,fun x hx => ?_,fun x hx hreached => ?_⟩
    · dsimp only
      rw [lookup_cons_ite,hconcat,h.depth]
      by_cases hxx : x=x0
      · subst hxx
        simp [hside,eq_comm]
      · simp [hxx,h.visited,Ne.symm hxx]
    · simp only [mem_append,mem_singleton,h.next,hconcat]
      constructor
      · rintro (⟨hx,hreached⟩ | rfl)
        · exact ⟨hx,.inl hreached⟩
        · exact ⟨hside,.inr rfl⟩
      · rintro ⟨hx,hreached | rfl⟩
        · exact .inl ⟨hx,hreached⟩
        · exact .inr rfl
    · dsimp only
      rw [lookup_cons_ite,if_neg fun hxx => hx (by rw [hxx,hside]),h.kept x hx]
    · dsimp only
      rw [lookup_cons_ite]
      by_cases hxx : x=x0
      · exact ⟨a,by simp,by rw [hx0,hxx],by rw [if_pos hxx]⟩
      · rcases (hconcat x).mp hreached with hreached | heq
        · obtain ⟨b,hb,heq,hparent⟩ := h.parents x hx hreached
          exact ⟨b,mem_append_left _ hb,heq,by rw [if_neg hxx,hparent]⟩
        · exact absurd heq.symm hxx

theorem arrived_foldl (direction : RelationshipDirection) (side other : Side) (best : Option (Nat × NodeId))
    (l : List (NodeId × EdgeKey)) :
    Arrived direction side l (l.foldl (arriveFrom other direction) ⟨side,[],best⟩) := by
  induction l using reverseRecOn with
  | nil =>
    refine ⟨rfl,fun x d => ?_,fun x => ?_,fun x _ => rfl,fun x _ h => ?_⟩
    · simp [Reached]
    · simp [Reached]
    · simp [Reached] at h
  | append_singleton l a ih =>
    rw [foldl_append]
    exact ih.step a

structure Closest (side other : Side) (best : Option (Nat × NodeId)) : Prop where
  meets : ∀ total m, best=some (total,m) →
    ∃ a b, side.visited.lookup m=some a ∧ other.visited.lookup m=some b ∧ total=a+b
  least : ∀ x a b, side.visited.lookup x=some a → other.visited.lookup x=some b →
    ∃ total m, best=some (total,m) ∧ total≤a+b

theorem Closest.symm (h : Closest side other best) : Closest other side best := by
  constructor
  · intro total m hbest
    obtain ⟨a,b,ha,hb,rfl⟩ := h.meets total m hbest
    exact ⟨b,a,hb,ha,Nat.add_comm a b⟩
  · intro x a b ha hb
    obtain ⟨total,m,hbest,hle⟩ := h.least x b a hb ha
    exact ⟨total,m,hbest,by omega⟩

theorem Closest.step (h : Closest st.side other st.best) (a : NodeId × EdgeKey) :
    Closest (arriveFrom other direction st a).side other (arriveFrom other direction st a).best := by
  unfold arriveFrom
  dsimp only
  generalize partnerId a.2 direction a.1=x0
  split
  · exact h
  · rename_i hnew
    rw [Bool.not_eq_true,isSome_eq_false_iff,isNone_iff_eq_none] at hnew
    have hold : ∀ {x d}, st.side.visited.lookup x=some d → x≠x0 := by
      rintro x d hd rfl
      rw [hnew] at hd
      cases hd
    have hmeets : ∀ total m, st.best=some (total,m) → ∃ a b,
        ((x0,st.side.depth+1)::st.side.visited).lookup m=some a ∧ other.visited.lookup m=some b ∧
          total=a+b := by
      intro total m hbest
      obtain ⟨a,b,ha,hb,rfl⟩ := h.meets total m hbest
      exact ⟨a,b,by rw [lookup_cons_ite,if_neg (hold ha),ha],hb,rfl⟩
    cases hother : other.visited.lookup x0 with
    | none =>
      refine ⟨hmeets,fun x a b ha hb => ?_⟩
      rw [lookup_cons_ite] at ha
      split at ha
      · rename_i hx
        rw [hx,hother] at hb
        cases hb
      · exact h.least x a b ha hb
    | some d =>
      have hhere : ((x0,st.side.depth+1)::st.side.visited).lookup x0=some (st.side.depth+1) := by
        rw [lookup_cons_ite,if_pos rfl]
      dsimp only
      constructor
      · intro total m hbest
        split at hbest
        · cases hbest
          exact ⟨_,d,hhere,hother,rfl⟩
        · exact hmeets total m hbest
      · intro x a b ha hb
        rw [lookup_cons_ite] at ha
        split at ha
        · rename_i hx
          subst hx
          cases ha
          rw [hother] at hb
          cases hb
          split
          · exact ⟨_,_,rfl,le_rfl⟩
          · rename_i hworse
            cases hbest : st.best with
            | none => simp [hbest] at hworse
            | some b =>
              rw [hbest] at hworse
              simp only [all_some,decide_eq_true_eq,not_lt] at hworse
              exact ⟨b.1,b.2,rfl,hworse⟩
        · obtain ⟨total,m,hbest,hle⟩ := h.least x a b ha hb
          split
          · rename_i hbetter
            rw [hbest] at hbetter
            simp only [all_some,decide_eq_true_eq] at hbetter
            exact ⟨_,_,rfl,by omega⟩
          · exact ⟨total,m,hbest,hle⟩

theorem Closest.expandLevel (h : Closest side other best) (graph : Graph) (edgeTypes : List String)
    (direction : RelationshipDirection) : Closest (expandLevel graph edgeTypes direction side other best).1 other
      (expandLevel graph edgeTypes direction side other best).2 := by
  have hfold : ∀ l : List (NodeId × EdgeKey),
      Closest (l.foldl (arriveFrom other direction) ⟨side,[],best⟩).side other
        (l.foldl (arriveFrom other direction) ⟨side,[],best⟩).best := by
    intro l
    induction l using reverseRecOn with
    | nil => exact h
    | append_singleton l a ih =>
      rw [foldl_append]
      exact ih.step a
  exact ⟨(hfold _).meets,(hfold _).least⟩

end

section

variable {E : NodeId → EdgeKey → NodeId → Prop} {start x : NodeId} {side : Side} {n : Nat}

/-- A side knows the distances up to its depth, the nodes at its depth, and a way back from each node. -/
structure Explored (E : NodeId → EdgeKey → NodeId → Prop) (start : NodeId) (side : Side) : Prop where
  started : side.visited.lookup start=some 0
  reaches : ∀ x d, side.visited.lookup x=some d → d ≤ side.depth ∧ Connects E start x d
  least : ∀ x d, side.visited.lookup x=some d → ∀ n, Connects E start x n → d≤n
  complete : ∀ x n, Connects E start x n → n ≤ side.depth → ∃ d, side.visited.lookup x=some d
  frontier : ∀ x, x∈side.frontier ↔ side.visited.lookup x=some side.depth
  parents : ∀ x d, side.visited.lookup x=some (d+1) →
    ∃ a, side.parents.lookup x=some a ∧ E a.1 a.2 x ∧ side.visited.lookup a.1=some d

theorem explored_start (E : NodeId → EdgeKey → NodeId → Prop) (start : NodeId) :
    Explored E start (Side.start start) := by
  have hvisited : ∀ x d, (Side.start start).visited.lookup x=some d ↔ x=start ∧ d=0 := by
    intro x d
    show [(start,0)].lookup x=some d ↔ _
    by_cases hx : x=start
    · simp [hx,eq_comm]
    · simp [hx]
  constructor
  · exact (hvisited start 0).mpr ⟨rfl,rfl⟩
  · intro x d hx
    obtain ⟨rfl,rfl⟩ := (hvisited x d).mp hx
    exact ⟨le_rfl,connects_zero.mpr rfl⟩
  · intro x d hx n _
    rw [((hvisited x d).mp hx).2]
    exact Nat.zero_le n
  · intro x n hn hle
    obtain rfl : n=0 := Nat.le_zero.mp hle
    exact ⟨0,(hvisited x 0).mpr ⟨(connects_zero.mp hn).symm,rfl⟩⟩
  · intro x
    rw [hvisited]
    show x∈[start] ↔ x=start ∧ (0 : Nat)=0
    simp
  · intro x d hx
    cases ((hvisited x _).mp hx).2

theorem Explored.distance (h : Explored E start side) (hn : Connects E start x n) (hle : n ≤ side.depth) :
    ∃ d, side.visited.lookup x=some d ∧ d≤n := by
  obtain ⟨d,hd⟩ := h.complete x n hn hle
  exact ⟨d,hd,h.least x d hd n hn⟩

theorem Explored.distance_of_exhausted (h : Explored E start side) (hempty : side.frontier=[])
    (hn : Connects E start x n) : ∃ d, side.visited.lookup x=some d ∧ d≤n := by
  induction n using Nat.strong_induction_on generalizing x with
  | _ n ih =>
    by_cases hle : n ≤ side.depth
    · exact h.distance hn hle
    · -- The route passes the depth of the side at a node that is nearer than that.
      obtain ⟨m,rfl⟩ := Nat.exists_eq_add_of_le (Nat.le_of_not_le hle)
      obtain ⟨y,hy,hrest⟩ := hn.split
      obtain ⟨d,hd,hdle⟩ := h.distance hy le_rfl
      have hlt : d<side.depth := by
        refine lt_of_le_of_ne hdle fun heq => ?_
        have hmem := (h.frontier y).mpr (heq ▸ hd)
        rw [hempty] at hmem
        cases hmem
      obtain ⟨d',hd',hle'⟩ := ih (d+m) (by omega) ((h.reaches y d hd).2.trans hrest)
      exact ⟨d',hd',by omega⟩

theorem Explored.climbs (h : Explored E start side) (hd : side.visited.lookup x=some d) (hn : d≤n) :
    Climbs E x (parentChain side.parents start n x) start ∧ (parentChain side.parents start n x).length=d := by
  induction d generalizing x n with
  | zero =>
    obtain rfl := connects_zero.mp (h.reaches x 0 hd).2
    cases n with
    | zero => exact ⟨.nil _,rfl⟩
    | succ n =>
      simp only [parentChain]
      exact ⟨.nil _,rfl⟩
  | succ d ih =>
    obtain ⟨a,ha,he,hparent⟩ := h.parents x d hd
    have hne : x≠start := by
      rintro rfl
      rw [h.started] at hd
      cases hd
    cases n with
    | zero => omega
    | succ n =>
      simp only [parentChain,if_neg hne,ha]
      obtain ⟨hclimbs,hlen⟩ := ih hparent (Nat.le_of_succ_le_succ hn)
      exact ⟨.cons he hclimbs,by rw [length_cons,hlen]⟩

variable {graph : Graph} {edgeTypes : List String} {direction : RelationshipDirection}

theorem Explored.expandLevel (h : Explored (LeadsTo graph edgeTypes direction) start side) (other : Side)
    (best : Option (Nat × NodeId)) :
    Explored (LeadsTo graph edgeTypes direction) start (expandLevel graph edgeTypes direction side other best).1 := by
  have hfold := arrived_foldl direction side other best
    (side.frontier.flatMap fun node => (neighboursOfAny graph edgeTypes direction node).map fun edge => (node,edge))
  unfold Cypher.expandLevel
  dsimp only
  generalize hl : (side.frontier.flatMap fun node =>
    (neighboursOfAny graph edgeTypes direction node).map fun edge => (node,edge))=l at hfold
  have hmem : ∀ a, a∈l ↔ side.visited.lookup a.1=some side.depth ∧
      LeadsTo graph edgeTypes direction a.1 a.2 (partnerId a.2 direction a.1) := by
    rintro ⟨node,edge⟩
    rw [← hl,← h.frontier]
    simp [leadsTo_iff]
  have hreached : ∀ x, Reached direction l x ↔ ∃ u k, side.visited.lookup u=some side.depth ∧
      LeadsTo graph edgeTypes direction u k x := by
    intro x
    constructor
    · rintro ⟨a,ha,rfl⟩
      exact ⟨a.1,a.2,(hmem a).mp ha⟩
    · rintro ⟨u,k,hu,he⟩
      obtain ⟨-,heq⟩ := leadsTo_iff.mp he
      exact ⟨(u,k),(hmem (u,k)).mpr ⟨hu,by rw [heq]; exact he⟩,heq⟩
  generalize l.foldl (arriveFrom other direction) ⟨side,[],best⟩=st at hfold
  have hnear : ∀ x, Reached direction l x → Connects (LeadsTo graph edgeTypes direction) start x (side.depth+1) := by
    intro x hx
    obtain ⟨u,k,hu,he⟩ := (hreached x).mp hx
    exact connects_succ.mpr ⟨u,k,(h.reaches u _ hu).2,he⟩
  constructor
  · exact (hfold.visited start 0).mpr (.inl h.started)
  · intro x d hd
    rcases (hfold.visited x d).mp hd with hd | ⟨-,rfl,hx⟩
    · exact ⟨(h.reaches x d hd).1.trans (Nat.le_succ _),(h.reaches x d hd).2⟩
    · exact ⟨le_rfl,hnear x hx⟩
  · intro x d hd n hn
    rcases (hfold.visited x d).mp hd with hd | ⟨hnone,rfl,-⟩
    · exact h.least x d hd n hn
    · by_contra hlt
      obtain ⟨d,hd⟩ := h.complete x n hn (by omega)
      rw [hnone] at hd
      cases hd
  · intro x n hn hle
    cases hx : side.visited.lookup x with
    | some d => exact ⟨d,(hfold.visited x d).mpr (.inl hx)⟩
    | none =>
      -- A node that was not known is one hop from the frontier.
      refine ⟨side.depth+1,(hfold.visited x _).mpr (.inr ⟨hx,rfl,(hreached x).mpr ?_⟩)⟩
      dsimp only at hle
      cases n with
      | zero =>
        rw [← connects_zero.mp hn,h.started] at hx
        cases hx
      | succ n =>
        obtain ⟨u,k,hu,he⟩ := connects_succ.mp hn
        obtain ⟨d,hd,hdn⟩ := h.distance hu (Nat.le_of_succ_le_succ hle)
        refine ⟨u,k,?_,he⟩
        rw [hd,some_inj]
        refine le_antisymm (h.reaches u d hd).1 ?_
        by_contra hlt
        obtain ⟨d',hd'⟩ := h.complete x (d+1) (connects_succ.mpr ⟨u,k,(h.reaches u d hd).2,he⟩) (by omega)
        rw [hx] at hd'
        cases hd'
  · intro x
    rw [hfold.next,hfold.visited]
    constructor
    · rintro ⟨hnone,hx⟩
      exact .inr ⟨hnone,rfl,hx⟩
    · rintro (hd | ⟨hnone,-,hx⟩)
      · have hle : side.depth+1 ≤ side.depth := (h.reaches x _ hd).1
        omega
      · exact ⟨hnone,hx⟩
  · intro x d hd
    rcases (hfold.visited x (d+1)).mp hd with hd | ⟨hnone,hdepth,hx⟩
    · obtain ⟨a,ha,he,hparent⟩ := h.parents x d hd
      refine ⟨a,?_,he,(hfold.visited a.1 d).mpr (.inl hparent)⟩
      rw [← ha]
      exact hfold.kept x (by rw [hd]; exact some_ne_none _)
    · obtain ⟨a,ha,heq,hparent⟩ := hfold.parents x hnone hx
      obtain ⟨hvisited,he⟩ := (hmem a).mp ha
      rw [heq] at he
      obtain rfl : d=side.depth := Nat.succ.inj hdepth
      exact ⟨a,hparent,he,(hfold.visited a.1 _).mpr (.inl hvisited)⟩

end

section

variable {graph : Graph} {edgeTypes : List String} {direction : RelationshipDirection} {src dst : NodeId} {max : Nat}
  {fwd bwd : Side} {best : Option (Nat × NodeId)} {m : NodeId} {total : Nat}

structure Searched (graph : Graph) (edgeTypes : List String) (direction : RelationshipDirection) (src dst : NodeId)
    (fwd bwd : Side) (best : Option (Nat × NodeId)) : Prop where
  closest : Closest fwd bwd best
  fwd : Explored (LeadsTo graph edgeTypes direction) src fwd
  bwd : Explored (LeadsTo graph edgeTypes (flipDirection direction)) dst bwd

/-- No shorter meeting is left, none within the bound, or one side has seen everything. -/
def Settled (max : Nat) (fwd bwd : Side) (best : Option (Nat × NodeId)) : Prop :=
  (∃ total m, best=some (total,m) ∧ total≤fwd.depth+bwd.depth) ∨ max≤fwd.depth+bwd.depth ∨
    fwd.frontier=[] ∨ bwd.frontier=[]

theorem meetInMiddle_settled (rounds : Nat) (h : Searched graph edgeTypes direction src dst fwd bwd best)
    (hrounds : max≤rounds+(fwd.depth+bwd.depth)) :
    ∃ fwd' bwd' best', meetInMiddle graph edgeTypes direction max rounds fwd bwd best=(fwd',bwd',best') ∧
      Searched graph edgeTypes direction src dst fwd' bwd' best' ∧ Settled max fwd' bwd' best' := by
  induction rounds generalizing fwd bwd best with
  | zero => exact ⟨fwd,bwd,best,rfl,h,.inr (.inl (by omega))⟩
  | succ rounds ih =>
    unfold meetInMiddle
    dsimp only
    split
    · rename_i hstop
      refine ⟨fwd,bwd,best,rfl,h,?_⟩
      simp only [Bool.or_eq_true,decide_eq_true_eq,List.isEmpty_iff,Option.any_eq_true] at hstop
      rcases hstop with ((⟨b,hb,hle⟩ | hmax) | hf) | hb
      · exact .inl ⟨b.1,b.2,hb,hle⟩
      · exact .inr (.inl hmax)
      · exact .inr (.inr (.inl hf))
      · exact .inr (.inr (.inr hb))
    · split
      · exact ih ⟨h.closest.expandLevel graph edgeTypes direction,h.fwd.expandLevel bwd best,h.bwd⟩
          (by show _ ≤ _ + (fwd.depth+1+bwd.depth); omega)
      · exact ih ⟨(h.closest.symm.expandLevel graph edgeTypes _).symm,h.fwd,h.bwd.expandLevel fwd best⟩
          (by show _ ≤ _ + (fwd.depth+(bwd.depth+1)); omega)

theorem searched_start (graph : Graph) (edgeTypes : List String) (direction : RelationshipDirection) (hne : src≠dst) :
    Searched graph edgeTypes direction src dst (Side.start src) (Side.start dst) none := by
  refine ⟨⟨fun _ _ h => (nomatch h),fun x a b ha hb => ?_⟩,explored_start _ src,explored_start _ dst⟩
  have hsrc : x=src := by
    by_contra hx
    rw [Side.start,lookup_cons_ite,if_neg hx] at ha
    cases ha
  have hdst : x=dst := by
    by_contra hx
    rw [Side.start,lookup_cons_ite,if_neg hx] at hb
    cases hb
  exact absurd (hsrc.symm.trans hdst) hne

section
variable (h : Searched graph edgeTypes direction src dst fwd bwd best)
include h

theorem Searched.connects (hbest : best=some (total,m)) :
    Connects (LeadsTo graph edgeTypes direction) src dst total := by
  obtain ⟨a,b,ha,hb,rfl⟩ := h.closest.meets total m hbest
  have hback := (h.bwd.reaches m b hb).2
  rw [leadsTo_flip,connects_reversed] at hback
  exact (h.fwd.reaches m a ha).2.trans hback

theorem Searched.best_le (hsettled : Settled max fwd bwd best)
    (hn : Connects (LeadsTo graph edgeTypes direction) src dst n) (hmax : n ≤ max) :
    ∃ total m, best=some (total,m) ∧ total≤n := by
  have hwithin : n≤fwd.depth+bwd.depth → ∃ total m, best=some (total,m) ∧ total≤n := by
    intro hle
    -- The route passes a node that both sides know.
    obtain ⟨i,j,rfl,hi,hj⟩ : ∃ i j, n=i+j ∧ i≤fwd.depth ∧ j≤bwd.depth :=
      ⟨min n fwd.depth,n-min n fwd.depth,by omega,by omega,by omega⟩
    obtain ⟨x,hx,hx'⟩ := hn.split
    rw [← connects_reversed,← leadsTo_flip] at hx'
    obtain ⟨a,ha,hai⟩ := h.fwd.distance hx hi
    obtain ⟨b,hb,hbj⟩ := h.bwd.distance hx' hj
    obtain ⟨total,m,hbest,htotal⟩ := h.closest.least x a b ha hb
    exact ⟨total,m,hbest,by omega⟩
  rcases hsettled with ⟨total,m,hbest,htotal⟩ | hdepth | hfwd | hbwd
  · by_cases hle : n≤fwd.depth+bwd.depth
    · exact hwithin hle
    · exact ⟨total,m,hbest,by omega⟩
  · exact hwithin (by omega)
  · obtain ⟨a,ha,hle⟩ := h.fwd.distance_of_exhausted hfwd hn
    obtain ⟨total,m,hbest,htotal⟩ := h.closest.least dst a 0 ha h.bwd.started
    exact ⟨total,m,hbest,by omega⟩
  · rw [← connects_reversed,← leadsTo_flip] at hn
    obtain ⟨b,hb,hle⟩ := h.bwd.distance_of_exhausted hbwd hn
    obtain ⟨total,m,hbest,htotal⟩ := h.closest.least src 0 b h.fwd.started hb
    exact ⟨total,m,hbest,by omega⟩

theorem Searched.route (hbest : best=some (total,m)) : ∃ hops, Route (LeadsTo graph edgeTypes direction) src hops dst ∧
      hops.length=total ∧ src::hops.map Prod.snd=(parentChain fwd.parents src fwd.depth m).reverse.map Prod.fst ++
        m::(parentChain bwd.parents dst bwd.depth m).map Prod.fst ∧
      hops.map Prod.fst=(parentChain fwd.parents src fwd.depth m).reverse.map Prod.snd ++
        (parentChain bwd.parents dst bwd.depth m).map Prod.snd := by
  obtain ⟨a,b,ha,hb,rfl⟩ := h.closest.meets total m hbest
  obtain ⟨hclimbs,hlen⟩ := h.fwd.climbs ha (h.fwd.reaches m a ha).1
  obtain ⟨hclimbs',hlen'⟩ := h.bwd.climbs hb (h.bwd.reaches m b hb).1
  rw [leadsTo_flip] at hclimbs'
  obtain ⟨hops,hroute,hedges,hnodes⟩ := hclimbs.route
  have hcount : hops.length=a := by
    have hmap := congrArg length hedges
    rwa [length_map,length_reverse,length_map,hlen] at hmap
  refine ⟨_,hroute.append hclimbs'.route_reversed,?_,?_,?_⟩
  · rw [length_append,length_map,hcount,hlen']
  · rw [map_append,← cons_append,hnodes,map_reverse,append_assoc]
    simp
  · rw [map_append,hedges,map_reverse]
    simp

end

theorem bidirectionalFirstPath_cases (graph : Graph) (edgeTypes : List String) (direction : RelationshipDirection)
    (hne : src≠dst) (max : Nat) : bidirectionalFirstPath graph edgeTypes direction src dst max=none ∧
        (∀ hops, Route (LeadsTo graph edgeTypes direction) src hops dst → max<hops.length) ∨
      ∃ hops, Shortest (LeadsTo graph edgeTypes direction) src hops dst ∧ hops.length ≤ max ∧
        bidirectionalFirstPath graph edgeTypes direction src dst max =
          some (src::hops.map Prod.snd,hops.map Prod.fst) := by
  obtain ⟨fwd,bwd,best,hrun,hsearched,hsettled⟩ := meetInMiddle_settled max
    (searched_start graph edgeTypes direction hne) (Nat.le_add_right max _)
  unfold bidirectionalFirstPath
  rw [hrun]
  cases hbest : best with
  | none =>
    refine .inl ⟨rfl,fun hops hroute => ?_⟩
    by_contra hlen
    obtain ⟨total,m,heq,-⟩ := hsearched.best_le hsettled ⟨hops,hroute,rfl⟩ (Nat.le_of_not_lt hlen)
    rw [hbest] at heq
    cases heq
  | some found =>
    obtain ⟨total,m⟩ := found
    have hpos : total≠0 := by
      rintro rfl
      exact hne (connects_zero.mp (hsearched.connects hbest))
    have hleast : ∀ hops, Route (LeadsTo graph edgeTypes direction) src hops dst → hops.length ≤ max →
        total≤hops.length := by
      intro hops hroute hlen
      obtain ⟨total',m',heq,hle⟩ := hsearched.best_le hsettled ⟨hops,hroute,rfl⟩ hlen
      rw [hbest,some_inj,Prod.mk.injEq] at heq
      omega
    dsimp only
    by_cases hmax : max<total
    · rw [if_pos (by simp [hmax])]
      refine .inl ⟨rfl,fun hops hroute => ?_⟩
      by_contra hlen
      have := hleast hops hroute (Nat.le_of_not_lt hlen)
      omega
    · have hkept : (decide (max<total)||total==0)=false := by simp [hmax,hpos]
      simp only [hkept,Bool.false_eq_true,if_false]
      obtain ⟨hops,hroute,hlen,hnodes,hedges⟩ := hsearched.route hbest
      have hshortest : Shortest (LeadsTo graph edgeTypes direction) src hops dst := by
        refine ⟨hroute,fun hops' hroute' => ?_⟩
        by_cases hlen' : hops'.length ≤ max
        · exact hlen ▸ hleast hops' hroute' hlen'
        · omega
      exact .inr ⟨hops,hshortest,by omega,by rw [hnodes,hedges]⟩

/-- Between different nodes the search returns a path exactly when one within the bound exists: a shortest one, along
stored relationships in the direction of the pattern, that takes none twice. -/
theorem bidirectionalFirstPath_shortest (graph : Graph) (edgeTypes : List String) (direction : RelationshipDirection)
    (src dst : NodeId) (max : Nat) (hne : src ≠ dst) :
    ((bidirectionalFirstPath graph edgeTypes direction src dst max).isSome = true ↔
      ∃ hops, Route (LeadsTo graph edgeTypes direction) src hops dst ∧ hops.length ≤ max) ∧
    ∀ nodes edges, bidirectionalFirstPath graph edgeTypes direction src dst max = some (nodes, edges) →
      ∃ hops, Shortest (LeadsTo graph edgeTypes direction) src hops dst ∧ hops.length ≤ max ∧
        nodes = src :: hops.map Prod.snd ∧ edges = hops.map Prod.fst ∧ edges.Nodup := by
  rcases bidirectionalFirstPath_cases graph edgeTypes direction hne max with ⟨hnone,hfar⟩ | ⟨hops,hshortest,hlen,hsome⟩
  · rw [hnone]
    refine ⟨⟨fun h => (nomatch h),?_⟩,fun _ _ h => (nomatch h)⟩
    rintro ⟨hops,hroute,hlen⟩
    have := hfar hops hroute
    omega
  · rw [hsome]
    refine ⟨⟨fun _ => ⟨hops,hshortest.1,hlen⟩,fun _ => rfl⟩,?_⟩
    rintro nodes edges heq
    cases heq
    exact ⟨hops,hshortest,hlen,rfl,rfl,hshortest.nodup fun _ _ _ _ _ he he' => leadsTo_ends he he'⟩

def square : Graph where
  nodes := ∅
  edges := ((((∅ : Edges).insert ⟨"R",1,2⟩ ∅).insert ⟨"R",2,3⟩ ∅).insert ⟨"R",4,3⟩ ∅).insert ⟨"R",1,4⟩ ∅

theorem bidirectionalFirstPath_square : (1 : NodeId) ≠ 3 ∧
    (bidirectionalFirstPath square ["R"] .both 1 3 2).isSome = true ∧
    ∃ hops, Route (LeadsTo square ["R"] .both) 1 hops 3 ∧ hops.length ≤ 2 := by
  have hsome : (bidirectionalFirstPath square ["R"] .both 1 3 2).isSome=true := by rfl
  exact ⟨by decide,hsome,(bidirectionalFirstPath_shortest square ["R"] .both 1 3 2 (by decide)).1.mp hsome⟩

end
end NamiDB.Cypher
