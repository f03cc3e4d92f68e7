import NamiDB.Cypher.EndpointSearch

/-! The DISTINCT projection over a variable-length pattern, answered by the search for endpoints, against the
one over all trails. -/
namespace NamiDB.Cypher
open Query Storage Lib List

section

variable (L : Scalars) (params : Params) (base : Base)

def orderRows (keys : List OrderKey) (rows : List Row) : Except EvalError (List Row) :=
  if keys.isEmpty then .ok rows else sortRows L params keys rows

def distinctRows (keys : List OrderKey) (items : List ProjectionItem) (discardInputBindings : Bool)
    (rows : List Row) : Except EvalError (List Row) := do
  let rows ← orderRows L params keys rows
  let projected ← projectRows L params items discardInputBindings rows
  pure (dedupRows L [] projected)

def endpointBounds (hop : Expand) (keys : List OrderKey) (items : List ProjectionItem) :
    Except EvalError (Option (Nat × Nat)) := do
  if hop.optional||hop.backReference||hop.shortest != .none||hop.pathBinding.isSome||hop.length.isNone then
    return none
  let referenced := items.flatMap (referencedVariables ·.expression)++keys.flatMap (referencedVariables ·.expression)
  if referenced.isEmpty || !referenced.all (·=hop.targetAlias) then
    return none
  let (min,max) := (← resolveLength params hop.length).getD (1,1)
  if min>1||max≤1 then
    return none
  return some (min,max)

/-- `none` leaves the query to the ordinary operators. -/
def tryExecuteEndpointDistinctProject (hop : Expand) (keys : List OrderKey) (items : List ProjectionItem)
    (discardInputBindings : Bool) (rows : List Row) : Except EvalError (Option (List Row)) := do
  match ← endpointBounds params hop keys items with
  | none => return none
  | some (min,max) =>
    let expanded ← executeExpand base hop min (clampHopMax max) true [] rows
    return some (← distinctRows L params keys items discardInputBindings expanded)

/-- The ordinary operators: all trails, then sort, projection and removal of duplicates. -/
def executeDistinctProject (hop : Expand) (keys : List OrderKey) (items : List ProjectionItem)
    (discardInputBindings : Bool) (rows : List Row) : Except EvalError (List Row) := do
  let (min,max) := (← resolveLength params hop.length).getD (1,1)
  let expanded ← executeExpand base hop min (clampHopMax max) false [] rows
  distinctRows L params keys items discardInputBindings expanded

def SameRows (a b : List Row) : Prop :=
  ∀ fp, fp∈a.map (rowFingerprint L) ↔ fp∈b.map (rowFingerprint L)

def Computes (keys : List OrderKey) (items : List ProjectionItem) (row : Row) : Prop :=
  (keys.isEmpty=false → ∃ b, keyedRow L params keys row = .ok b) ∧ ∃ p, projectRow L params items true row = .ok p

abbrev Projects (items : List ProjectionItem) (rows : List Row) (fp : List Char) : Prop :=
  ∃ row ∈ rows, ∃ p, projectRow L params items true row = .ok p ∧ rowFingerprint L p=fp

variable {L params base} {keys : List OrderKey} {items : List ProjectionItem} {rows out : List Row}

theorem distinctRows_ok (h : distinctRows L params keys items true rows = .ok out) :
    (∀ row ∈ rows, Computes L params keys items row) ∧
      ∀ fp, fp∈out.map (rowFingerprint L) ↔ Projects L params items rows fp := by
  obtain ⟨sorted,hsorted,h⟩ := bind_eq_ok.mp h
  obtain ⟨projected,hprojected,⟨⟩⟩ := bind_eq_ok.mp h
  have hall := gather_one_eq_ok.mp hprojected
  obtain ⟨hperm,hkeyed⟩ : sorted.Perm rows ∧
      (keys.isEmpty=false → ∀ row ∈ rows, ∃ b, keyedRow L params keys row = .ok b) := by
    unfold orderRows at hsorted
    split at hsorted
    · rename_i hempty
      cases hsorted
      exact ⟨.refl _,fun h => by simp [hempty] at h⟩
    · obtain ⟨hperm,hkeyed⟩ := sortRows_perm hsorted
      exact ⟨hperm,fun _ => hkeyed⟩
  refine ⟨fun row hrow => ⟨fun hkeys => hkeyed hkeys row hrow,?_⟩,fun fp => ?_⟩
  · obtain ⟨p,-,hp⟩ := mem_of_forall₂_left hall (hperm.mem_iff.mpr hrow)
    exact ⟨p,hp⟩
  · rw [mem_dedupRows,mem_map]
    constructor
    · rintro ⟨⟨p,hp,rfl⟩,-⟩
      obtain ⟨row,hrow,hproject⟩ := mem_of_forall₂_right hall hp
      exact ⟨row,hperm.mem_iff.mp hrow,p,hproject,rfl⟩
    · rintro ⟨row,hrow,p,hproject,rfl⟩
      obtain ⟨p',hp',hproject'⟩ := mem_of_forall₂_left hall (hperm.mem_iff.mpr hrow)
      cases hproject.symm.trans hproject'
      exact ⟨⟨p,hp',rfl⟩,not_mem_nil⟩

theorem exists_distinctRows (h : ∀ row ∈ rows, Computes L params keys items row) :
    ∃ out, distinctRows L params keys items true rows = .ok out := by
  obtain ⟨sorted,hsorted,hperm⟩ : ∃ sorted, orderRows L params keys rows = .ok sorted ∧ sorted.Perm rows := by
    unfold orderRows
    split
    · exact ⟨rows,rfl,.refl _⟩
    · rename_i hkeys
      obtain ⟨sorted,hsorted⟩ := exists_sortRows fun row hrow => (h row hrow).1 (by simpa using hkeys)
      exact ⟨sorted,hsorted,(sortRows_perm hsorted).1⟩
  obtain ⟨projected,hprojected⟩ := exists_gather_one fun row hrow => (h row (hperm.mem_iff.mp hrow)).2
  exact ⟨_,bind_eq_ok.mpr ⟨sorted,hsorted,bind_eq_ok.mpr ⟨projected,hprojected,rfl⟩⟩⟩

end

section

variable (L : Scalars) (params : Params) (base : Base)

def endpointKey (items : List ProjectionItem) (target : String) (v : RuntimeValue) : Option (List Char) :=
  match projectRow L params items true (Row.new.set target v) with
  | .ok row => some (rowFingerprint L row)
  | .error _ => none

/-- What the search returns: a start, once for each node, or an end that is not a lost start. -/
def Found (hop : Expand) (min max : Nat) (rows : List Row) (v : RuntimeValue) : Prop :=
  (min=0 ∧ ∃ n ∈ zeroStarts hop true [] rows, v = .node n) ∨
    ∃ row ∈ rows, ∃ n id view, row.get hop.source=some (.node n) ∧ Reaches base hop max row n.id id ∧
      ¬(id=n.id ∧ Lost base hop row n.id) ∧ Result base hop id view ∧ v = .node view

/-- For a start that is lost, and for one that only an earlier row returns, something is found that DISTINCT does
not tell apart from it. -/
structure Covered (hop : Expand) (min max : Nat) (items : List ProjectionItem) (rows : List Row) : Prop where
  lost : ∀ row ∈ rows, ∀ n view, row.get hop.source=some (.node n) → Lost base hop row n.id →
    Reaches base hop max row n.id n.id → Result base hop n.id view →
    ∃ v, Found base hop min max rows v ∧ endpointKey L params items hop.targetAlias v =
      endpointKey L params items hop.targetAlias (.node view)
  zero : min=0 → ∀ n ∈ starts hop rows, ∃ v, Found base hop min max rows v ∧
    endpointKey L params items hop.targetAlias v=endpointKey L params items hop.targetAlias (.node n)

variable {L params base} {hop : Expand} {keys : List OrderKey} {items : List ProjectionItem} {v : RuntimeValue}

abbrev Ends (hop : Expand) (rows : List Row) (v : RuntimeValue) : Prop := ∃ r ∈ rows, r.get hop.targetAlias=some v

theorem agree_endpoint {row : Row} (hrow : row.get target=some v) :
    Agree [target] row.get (Row.new.set target v).get := by
  intro x hx
  cases mem_singleton.mp hx
  simp [hrow]

theorem readsAll_subset {names : List String} (h : ∀ key ∈ keys, reads key.expression ⊆ names) :
    readsAll (keys.map OrderKey.expression) ⊆ names := by
  induction keys with
  | nil => exact nil_subset _
  | cons key keys ih =>
    obtain ⟨hkey,hkeys⟩ := forall_mem_cons.mp h
    exact List.append_subset.mpr ⟨hkey,ih hkeys⟩

section
variable (hitems : ∀ item ∈ items, reads item.expression ⊆ [hop.targetAlias])
include hitems

theorem computes_endpoint (hkeys : ∀ key ∈ keys, reads key.expression ⊆ [hop.targetAlias]) {row row' : Row}
    (hrow : row.get hop.targetAlias=some v) (hrow' : row'.get hop.targetAlias=some v)
    (h : Computes L params keys items row) : Computes L params keys items row' := by
  have hagree : Agree [hop.targetAlias] row.get row'.get := (agree_endpoint hrow).trans (agree_endpoint hrow').symm
  have hreads := readsAll_subset hkeys
  refine ⟨fun hne => ?_,?_⟩
  · obtain ⟨b,hb⟩ := h.1 hne
    obtain ⟨values,hvalues,-⟩ := bind_eq_ok.mp hb
    rw [evaluateAll_congr L params _ (hagree.mono hreads)] at hvalues
    exact ⟨_,bind_eq_ok.mpr ⟨values,hvalues,rfl⟩⟩
  · obtain ⟨p,hp⟩ := h.2
    exact ⟨p,(projectRow_congr hitems hagree).symm.trans hp⟩

theorem endpointKey_eq (hrow : row.get hop.targetAlias=some v) (hp : projectRow L params items true row = .ok p) :
    endpointKey L params items hop.targetAlias v=some (rowFingerprint L p) := by
  rw [projectRow_congr hitems (agree_endpoint hrow)] at hp
  simp [endpointKey,hp]

theorem sameRows_iff {trails found out out' : List Row} (htrails : ∀ r ∈ trails, ∃ v, r.get hop.targetAlias=some v)
    (hfound : ∀ r ∈ found, ∃ v, r.get hop.targetAlias=some v)
    (hcomputes : ∀ r ∈ trails, Computes L params keys items r)
    (hsub : ∀ v, Ends hop found v → Ends hop trails v)
    (hout : ∀ fp, fp∈out.map (rowFingerprint L) ↔ Projects L params items trails fp)
    (hout' : ∀ fp, fp∈out'.map (rowFingerprint L) ↔ Projects L params items found fp) :
    SameRows L out' out ↔ ∀ v, Ends hop trails v → ∃ v', Ends hop found v' ∧
        endpointKey L params items hop.targetAlias v'=endpointKey L params items hop.targetAlias v := by
  have hkey : ∀ rows : List Row, (∀ r ∈ rows, ∃ v, r.get hop.targetAlias=some v) →
      (∀ v, Ends hop rows v → Ends hop trails v) → ∀ fp, Projects L params items rows fp ↔
        ∃ v, Ends hop rows v ∧ endpointKey L params items hop.targetAlias v=some fp := by
    intro rows hbound hrows fp
    constructor
    · rintro ⟨row,hrow,p,hp,rfl⟩
      obtain ⟨v,hv⟩ := hbound row hrow
      exact ⟨v,⟨row,hrow,hv⟩,endpointKey_eq hitems hv hp⟩
    · rintro ⟨v,⟨r,hr,hv⟩,hfp⟩
      obtain ⟨r',hr',hv'⟩ := hrows v ⟨r,hr,hv⟩
      obtain ⟨p,hp⟩ := (hcomputes r' hr').2
      rw [endpointKey_eq hitems hv' hp,Option.some.injEq] at hfp
      refine ⟨r,hr,p,?_,hfp⟩
      rw [projectRow_congr hitems ((agree_endpoint hv).trans (agree_endpoint hv').symm),hp]
  simp only [SameRows,hout,hout',hkey found hfound hsub,hkey trails htrails fun _ h => h]
  constructor
  · rintro h v ⟨r,hr,hv⟩
    obtain ⟨p,hp⟩ := (hcomputes r hr).2
    have hfp := endpointKey_eq hitems hv hp
    obtain ⟨v',hv',hfp'⟩ := (h (rowFingerprint L p)).mpr ⟨v,⟨r,hr,hv⟩,hfp⟩
    exact ⟨v',hv',hfp'.trans hfp.symm⟩
  · intro h fp
    constructor
    · rintro ⟨v,hv,hfp⟩
      exact ⟨v,hsub v hv,hfp⟩
    · rintro ⟨v,hv,hfp⟩
      obtain ⟨v',hv',heq⟩ := h v hv
      exact ⟨v',hv',heq.trans hfp⟩

end

theorem endpointBounds_some {min max : Nat} (h : endpointBounds params hop keys items = .ok (some (min,max)))
    (hrel : hop.relAlias≠some hop.targetAlias) : Endpoint hop min (clampHopMax max) ∧
    (∀ item ∈ items, reads item.expression ⊆ [hop.targetAlias]) ∧
    (∀ key ∈ keys, reads key.expression ⊆ [hop.targetAlias]) ∧
    ∃ length, resolveLength params hop.length = .ok length ∧ length.getD (1,1)=(min,max) := by
  unfold endpointBounds at h
  split at h
  · cases h
  rename_i hshape
  simp only [Bool.or_eq_true,not_or,Bool.not_eq_true] at hshape
  obtain ⟨⟨⟨⟨hoptional,hback⟩,-⟩,hpath⟩,-⟩ := hshape
  dsimp only at h
  split at h
  · cases h
  rename_i hreferenced
  obtain ⟨length,hlength,h⟩ := bind_eq_ok.mp h
  generalize hpair : length.getD (1,1)=bounds at h
  obtain ⟨min',max'⟩ := bounds
  split at h
  · cases h
  rename_i hbounds
  cases h
  simp only [Bool.or_eq_true,not_or,decide_eq_true_eq,not_lt] at hbounds
  have hnames : ∀ x ∈ items.flatMap (referencedVariables ·.expression) ++
      keys.flatMap (referencedVariables ·.expression), x=hop.targetAlias := by
    simp only [Bool.or_eq_true,not_or,Bool.not_eq_true,Bool.not_eq_false',all_eq_true,decide_eq_true_eq]
      at hreferenced
    exact hreferenced.2
  refine ⟨⟨hoptional,hback,by simpa using hpath,hrel,hbounds.1,?_⟩,?_,?_,length,hlength,hpair⟩
  · unfold clampHopMax unboundedVarLengthCap
    split <;> omega
  · intro item hitem x hx
    rw [hnames x (mem_append_left _ (mem_flatMap.mpr ⟨item,hitem,(reads_within _ x hx).1⟩))]
    exact mem_singleton_self _
  · intro key hkey x hx
    rw [hnames x (mem_append_right _ (mem_flatMap.mpr ⟨key,hkey,(reads_within _ x hx).1⟩))]
    exact mem_singleton_self _

theorem found_iff {min max : Nat} {found : List Row} (h : Endpoint hop min max)
    (hok : executeExpand base hop min max true [] rows = .ok found) (v : RuntimeValue) :
    Ends hop found v ↔ Found base hop min max rows v := by
  rw [Ends,(executeExpand_values h hok).2 v,Found]
  simp only [arrives_pruned h.max]

theorem trails_iff {min max : Nat} {trails : List Row} (h : Endpoint hop min max)
    (hok : executeExpand base hop min max false [] rows = .ok trails) (v : RuntimeValue) :
    Ends hop trails v ↔ (min=0 ∧ ∃ n ∈ starts hop rows, v = .node n) ∨
      ∃ row ∈ rows, ∃ n id view, row.get hop.source=some (.node n) ∧ Reaches base hop max row n.id id ∧
        Result base hop id view ∧ v = .node view := by
  rw [Ends,(executeExpand_values h hok).2 v]
  simp only [arrives_all]
  rfl

/-- The search for endpoints returns the rows that the enumeration of all trails returns, exactly when nothing is lost
that is not made up for. -/
theorem endpointDistinct_iff (hop : Expand) (keys : List OrderKey) (items : List ProjectionItem) (rows out : List Row)
    (min max : Nat) (hbounds : endpointBounds params hop keys items = .ok (some (min, max)))
    (hrel : hop.relAlias ≠ some hop.targetAlias)
    (hall : executeDistinctProject L params base hop keys items true rows = .ok out) :
    (∃ out', tryExecuteEndpointDistinctProject L params base hop keys items true rows = .ok (some out') ∧
      SameRows L out' out) ↔ Covered L params base hop min (clampHopMax max) items rows := by
  obtain ⟨hendpoint,hitems,hkeys,length,hlength,hpair⟩ := endpointBounds_some hbounds hrel
  obtain ⟨length',hlength',hall⟩ := bind_eq_ok.mp hall
  cases hlength.symm.trans hlength'
  simp only [hpair] at hall
  obtain ⟨trails,htrails,hall⟩ := bind_eq_ok.mp hall
  obtain ⟨found,hfound⟩ := exists_executeExpand base true [] hendpoint (expandable_of_executeExpand htrails)
  have htrailBound := (executeExpand_values hendpoint htrails).1
  have hfoundBound := (executeExpand_values hendpoint hfound).1
  have htrailValues := trails_iff hendpoint htrails
  have hfoundValues := found_iff hendpoint hfound
  have hsub : ∀ v, Ends hop found v → Ends hop trails v := by
    intro v hv
    rw [htrailValues]
    rcases (hfoundValues v).mp hv with ⟨hmin,n,hn,rfl⟩ | ⟨row,hrow,n,id,view,hn,hreach,-,hres,rfl⟩
    · exact .inl ⟨hmin,n,(firsts_sublist _ _).subset hn,rfl⟩
    · exact .inr ⟨row,hrow,n,id,view,hn,hreach,hres,rfl⟩
  obtain ⟨hcomputes,hkeysAll⟩ := distinctRows_ok hall
  obtain ⟨out',hout'⟩ : ∃ out', distinctRows L params keys items true found = .ok out' := by
    refine exists_distinctRows fun r hr => ?_
    obtain ⟨v,hv⟩ := hfoundBound r hr
    obtain ⟨r',hr',hv'⟩ := hsub v ⟨r,hr,hv⟩
    exact computes_endpoint hitems hkeys hv' hv (hcomputes r' hr')
  have htry : tryExecuteEndpointDistinctProject L params base hop keys items true rows = .ok (some out') :=
    bind_eq_ok.mpr ⟨_,hbounds,bind_eq_ok.mpr ⟨found,hfound,bind_eq_ok.mpr ⟨out',hout',rfl⟩⟩⟩
  have hkeysFound := (distinctRows_ok hout').2
  have hexists : (∃ out', tryExecuteEndpointDistinctProject L params base hop keys items true rows =
      .ok (some out') ∧ SameRows L out' out) ↔ SameRows L out' out := by
    rw [htry]
    constructor
    · rintro ⟨_,heq,h⟩
      cases heq
      exact h
    · exact fun h => ⟨out',rfl,h⟩
  rw [hexists,sameRows_iff hitems htrailBound hfoundBound hcomputes hsub hkeysAll hkeysFound]
  simp only [htrailValues,hfoundValues]
  constructor
  · intro h
    constructor
    · intro row hrow n view hn hlost hreach hres
      exact h _ (.inr ⟨row,hrow,n,n.id,view,hn,hreach,hres,rfl⟩)
    · intro hmin n hn
      exact h _ (.inl ⟨hmin,n,hn,rfl⟩)
  · rintro hcovered v (⟨hmin,n,hn,rfl⟩ | ⟨row,hrow,n,id,view,hn,hreach,hres,rfl⟩)
    · exact hcovered.zero hmin n hn
    · by_cases hlost : id=n.id ∧ Lost base hop row n.id
      · obtain ⟨rfl,hlost⟩ := hlost
        exact hcovered.lost row hrow n view hn hlost hreach hres
      · exact ⟨_,.inr ⟨row,hrow,n,id,view,hn,hreach,hlost,hres,rfl⟩,rfl⟩

end

def circle : Base where
  graph :=
    { nodes := ((∅ : Overlay).insert 1 ⟨[],∅⟩).insert 2 ⟨[],∅⟩ |>.insert 3 ⟨[],∅⟩
      edges := ((∅ : Edges).insert ⟨"R",1,2⟩ ∅).insert ⟨"R",2,3⟩ ∅ |>.insert ⟨"R",3,1⟩ ∅ }
  edgeTypes := ["R"]
  typed := by decide
  distinct := List.nodup_singleton "R"

def upToThree (direction : RelationshipDirection) : Expand where
  source := "a"
  edgeType := some ["R"]
  direction := direction
  relAlias := none
  targetAlias := "x"
  targetLabels := []
  length := some ⟨1,3,none,none⟩
  optional := false
  backReference := false
  shortest := .none
  pathBinding := none
  uniqueRels := []

def nodeAt (name : String) (id : NodeId) : Row := Row.new.set name (.node ⟨id,[],∅⟩)

theorem endpointDistinct_directed : ∃ out', tryExecuteEndpointDistinctProject Scalars.bare (fun _ => none) circle
    (upToThree .right) [] [⟨.var "x", "x"⟩] true [nodeAt "a" 1] = .ok (some out') ∧
      SameRows Scalars.bare out' [nodeAt "x" 2, nodeAt "x" 3, nodeAt "x" 1] := by
  refine (endpointDistinct_iff (upToThree .right) [] [⟨.var "x", "x"⟩] [nodeAt "a" 1] _ 1 3 rfl (by decide)
    rfl).mpr ⟨?_,fun h => absurd h (by decide)⟩
  intro row _ n view _ hlost
  exact absurd hlost.1 (by decide)

/-- `MATCH (a)-[:R*1..3]-(x) RETURN DISTINCT x` from one node of the circle: the trail around it is not found. -/
theorem endpointDistinct_misses_start :
    (executeDistinctProject Scalars.bare (fun _ => none) circle (upToThree .both) [] [⟨.var "x", "x"⟩] true
        [nodeAt "a" 1]).map (·.map (rowFingerprint Scalars.bare)) =
      .ok ["x=N2;;".toList, "x=N3;;".toList, "x=N1;;".toList] ∧
    (tryExecuteEndpointDistinctProject Scalars.bare (fun _ => none) circle (upToThree .both) [] [⟨.var "x", "x"⟩] true
        [nodeAt "a" 1]).map (·.map (·.map (rowFingerprint Scalars.bare))) =
      .ok (some ["x=N2;;".toList, "x=N3;;".toList]) := by
  constructor <;> rfl

end NamiDB.Cypher
