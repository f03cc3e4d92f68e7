import NamiDB.Cypher.Walker

/-! A LIMIT without an order asks the operators below it for no more rows than it needs. What they return then is
the beginning of what they return without a limit, and it is enough. -/
namespace NamiDB.Cypher
open Query Storage Lib List

section
namespace Traversal

variable {t : Traversal} {depth : Nat} {visited : List NodeId}

theorem visitEdge_hits (st : LevelState) (step : Step) (edge : EdgeKey) :
    st.hits <+: (t.visitEdge depth visited st step edge).hits := by
  unfold visitEdge
  dsimp only
  repeat' split
  all_goals first | exact prefix_refl _ | exact prefix_append _ _

theorem foldl_visitEdge_hits (edges : List (Step × EdgeKey)) (st : LevelState) :
    st.hits <+: (edges.foldl (fun st a => t.visitEdge depth visited st a.1 a.2) st).hits := by
  induction edges generalizing st with
  | nil => exact prefix_refl _
  | cons a edges ih => exact (visitEdge_hits st a.1 a.2).trans (ih _)

theorem visitWaves_fills (room : Nat) {edges : List (Step × EdgeKey)} (st : LevelState)
    (hwaves : edges.length<waves) (hsize : 0<size) :
    Fills room (t.visitWaves depth visited room waves size edges st).hits
      (edges.foldl (fun st a => t.visitEdge depth visited st a.1 a.2) st).hits := by
  induction waves generalizing size edges st with
  | zero => exact absurd hwaves (Nat.not_lt_zero _)
  | succ waves ih =>
    rw [visitWaves,← edges.take_append_drop size,foldl_append,edges.take_append_drop]
    split
    · rename_i hstop
      rw [Bool.or_eq_true,List.isEmpty_iff,decide_eq_true_eq] at hstop
      rcases hstop with hnil | hle
      · rw [hnil]
        exact .refl _ _
      · exact fills_of_le (foldl_visitEdge_hits _ _) hle
    · rename_i hgo
      rw [Bool.or_eq_true,List.isEmpty_iff,not_or] at hgo
      have hdrop : 0<(edges.drop size).length := length_pos_iff.mpr hgo.1
      rw [length_drop] at hdrop
      exact ih _ (by rw [length_drop]; omega) (by omega)

theorem traverse_hits (hops depth : Nat) (visited : List NodeId) (frontier : List Step) (hits : List Row) :
    hits <+: t.traverse hops depth visited frontier hits := by
  induction hops generalizing depth visited frontier hits with
  | zero => exact prefix_refl _
  | succ hops ih =>
    have hlevel : hits <+: (t.visitLevel depth visited frontier hits).hits :=
      foldl_visitEdge_hits _ (⟨[],[],hits⟩ : LevelState)
    rw [traverse]
    split
    · exact hlevel
    · exact hlevel.trans (ih _ _ _ _)

theorem traverseUpTo_fills (room hops depth : Nat) (visited : List NodeId) (frontier : List Step) (hits : List Row) :
    Fills room (t.traverseUpTo room hops depth visited frontier hits)
      (t.traverse hops depth visited frontier hits) := by
  induction hops generalizing depth visited frontier hits with
  | zero => exact .refl _ _
  | succ hops ih =>
    rw [traverseUpTo,traverse]
    by_cases hlast : (t.visitLevel depth visited frontier hits).next.isEmpty=true
    · rw [if_pos (by rw [hlast,Bool.or_true]),if_pos hlast]
      exact .refl _ _
    · rw [if_neg hlast]
      split
      · rename_i hstop
        rw [Bool.or_eq_true,decide_eq_true_eq] at hstop
        exact fills_of_le (traverse_hits _ _ _ _ _) (hstop.resolve_right hlast)
      · exact ih _ _ _ _

theorem walk_fills (t : Traversal) (hwindow : 0<window) (room : Nat) (frontier : List Step) (hits : List Row) :
    Fills room (t.walk window (some room) frontier hits) (t.walk window none frontier hits) := by
  unfold walk
  dsimp only
  split
  · exact traverseUpTo_fills _ _ _ _ _ _
  split
  · rename_i hsingle
    rw [Bool.and_eq_true,beq_iff_eq] at hsingle
    have hone : t.traverse t.max 1 [] frontier hits=(t.visitLevel 1 [] frontier hits).hits := by
      rw [hsingle.1]
      simp [traverse]
    rw [hone]
    exact visitWaves_fills room _ (Nat.lt_succ_self _) hwindow
  · exact .refl _ _

end Traversal

variable {base : Base} {hop : Expand} {min max window : Nat} {endpointBfs : Bool}

theorem expandRowUpTo_fills (hwindow : 0<window) {emitted emitted' : List NodeId} {row : Row}
    {whole : List Row} {room : Nat} (hroom : 0<room)
    (h : expandRow base hop min max endpointBfs emitted row = .ok (emitted',whole)) :
    ∃ part, expandRowUpTo base hop min max endpointBfs window (some room) emitted row = .ok (emitted',part) ∧
      Fills room part whole := by
  unfold expandRow expandRowBy at h
  unfold expandRowUpTo expandRowBy
  split at h
  · rename_i n hn
    obtain ⟨⟨existing,matchesLabels⟩,htarget,h⟩ := bind_eq_ok.mp h
    simp only [htarget,bind]
    simp only [pure,Except.pure] at h
    obtain ⟨rfl,rfl⟩ := h
    refine ⟨_,rfl,?_⟩
    generalize hfull : Traversal.traverse _ max 1 [] _ _ = full
    generalize hpart : Traversal.walk _ window (some room) _ _ = part
    have hfills : Fills room part full := by
      rw [← hfull,← hpart]
      exact Traversal.walk_fills _ hwindow room _ _
    -- rows that are cut off leave some, since room was left
    rcases hfills.eq_or_le with rfl | hle
    · exact .refl _ _
    · have hne : part.isEmpty=false := by
        cases part with
        | nil => simp at hle; omega
        | cons a part => rfl
      have hne' : full.isEmpty=false := by
        cases full with
        | nil => rw [prefix_nil.mp hfills.1] at hne; exact hne
        | cons a full => rfl
      simpa only [hne,hne',Bool.false_and,Bool.false_eq_true,if_false] using hfills
  · cases h
    exact ⟨_,rfl,.refl _ _⟩
  · cases h

theorem expandUpTo_zero (endpointBfs : Bool) (emitted : List NodeId) (rows : List Row) :
    expandUpTo base hop min max endpointBfs window (some 0) emitted rows = .ok [] := by
  cases rows with
  | nil => rfl
  | cons row rows => exact if_pos rfl

theorem expandUpTo_fills (hwindow : 0<window) {window' : Nat} {emitted : List NodeId}
    {rows whole : List Row} (cap : Nat)
    (h : expandUpTo base hop min max endpointBfs window' none emitted rows = .ok whole) :
    ∃ part, expandUpTo base hop min max endpointBfs window (some cap) emitted rows = .ok part ∧
      Fills cap part whole := by
  induction rows generalizing emitted whole cap with
  | nil =>
    cases h
    exact ⟨[],rfl,.refl _ _⟩
  | cons row rows ih =>
    obtain ⟨⟨emitted',out⟩,hout,h⟩ := bind_eq_ok.mp h
    obtain ⟨rest,hrest,⟨⟩⟩ := bind_eq_ok.mp h
    rcases Nat.eq_zero_or_pos cap with rfl | hcap
    · exact ⟨[],expandUpTo_zero _ _ _, nil_prefix,by simp⟩
    · obtain ⟨out',hout',hfills⟩ := expandRowUpTo_fills hwindow hcap hout
      obtain ⟨rest',hrest',hfillsRest⟩ := ih (cap-out'.length) hrest
      refine ⟨out'++rest',?_,hfills.append hfillsRest fun hle => ?_⟩
      · rw [expandUpTo,if_neg (by simpa using Nat.ne_of_gt hcap)]
        exact bind_eq_ok.mpr ⟨_,hout',bind_eq_ok.mpr ⟨rest',hrest',rfl⟩⟩
      · rw [Nat.sub_eq_zero_of_le hle,expandUpTo_zero] at hrest'
        cases hrest'
        rfl

theorem firstWindow_pos (cap : Option Nat) : 0<firstWindow cap :=
  Nat.lt_of_lt_of_le (by decide) (Nat.le_max_right _ _)

end

section

variable {params : Params} {base : Base} {hop : Expand}

variable (params base hop) in
/-- What the expand returns for one seed on its own. -/
def seedRows (row : Row) : Except EvalError (List Row) := do
  let (min,max) := (← resolveLength params hop.length).getD (1,1)
  if hop.shortest = .none then expandOne base hop min (clampHopMax max) row
  else expandShortestRow base hop min (clampHopMax max) row

theorem seedRows_eq (hbounds : resolveLength params hop.length = .ok bounds) (row : Row) :
    seedRows params base hop row=if hop.shortest = .none then
      expandOne base hop (bounds.getD (1,1)).1 (clampHopMax (bounds.getD (1,1)).2) row
      else expandShortestRow base hop (bounds.getD (1,1)).1 (clampHopMax (bounds.getD (1,1)).2) row := by
  rw [seedRows,hbounds]
  rfl

theorem expandRows_alone (hmode : hop.shortest = .none ∨ hop.backReference=false) (rows : List Row)
    (hbounds : resolveLength params hop.length = .ok bounds) :
    expandRows params base hop none rows=gather (seedRows params base hop) rows := by
  simp only [funext (seedRows_eq hbounds)]
  by_cases hplain : hop.shortest = .none
  · simp only [hplain,if_true]
    exact expandRows_plain hplain hbounds rows
  · simp only [hplain,if_false]
    rw [expandRows,hbounds]
    change (if hop.shortest = .none then _ else _) = _
    rw [if_neg hplain,executeExpandShortest,hmode.resolve_left hplain]
    exact gatherUpTo_none _ rows

/-- Under a cap each seed is searched on its own. -/
theorem expandRows_fills (hbounds : resolveLength params hop.length = .ok bounds) (cap : Nat) (rows whole : List Row)
    (h : gather (seedRows params base hop) rows = .ok whole) :
    ∃ part, expandRows params base hop (some cap) rows = .ok part ∧ Fills cap part whole := by
  simp only [funext (seedRows_eq hbounds)] at h
  rw [expandRows,hbounds]
  change ∃ part, (if hop.shortest = .none then _ else _) = _ ∧ _
  by_cases hplain : hop.shortest = .none
  · simp only [hplain,if_true] at h ⊢
    rw [← expandUpTo_none hop _ _ 0 []] at h
    exact expandUpTo_fills (firstWindow_pos _) cap h
  · simp only [hplain,if_false] at h ⊢
    rw [executeExpandShortest,Option.isNone_some,Bool.and_false,if_neg Bool.false_ne_true]
    exact exists_gatherUpTo cap (fun row _ room bs _ hbs => ⟨bs,hbs,.refl _ _⟩) h

theorem expandSeeds_fills (hbounds : resolveLength params hop.length = .ok bounds) (scanned : Bool) (cap : Nat)
    {rows whole : List Row} (h : gather (seedRows params base hop) rows = .ok whole) :
    ∃ part, expandSeeds params base hop scanned (some cap) rows = .ok part ∧ Fills cap part whole := by
  unfold expandSeeds
  dsimp only
  split
  · exact exists_inRounds (expandRows_fills hbounds) cap (Nat.lt_succ_self _)
      (Nat.lt_of_lt_of_le (by decide) (Nat.le_max_right _ _)) h
  · exact expandRows_fills hbounds cap rows whole h

end

section

variable (L : Scalars) (params : Params) (base : Base)
variable {row : Row} {emitted emitted' : List NodeId} {out seeds whole : List Row}

def ReachedFrom (hop : Expand) (max : Nat) (row : Row) (v : RuntimeValue) : Prop :=
  ∃ n id view, row.get hop.source=some (.node n) ∧ Reaches base hop max row n.id id ∧ Result base hop id view ∧
    v = .node view

def EndsAt (hop : Expand) (min max : Nat) (row : Row) (v : RuntimeValue) : Prop :=
  ZeroHop hop min row v ∨ ReachedFrom base hop max row v

/-- No two ends of the pattern are projected to one row: not two that different seeds reach, not two of one
seed, and not the seed itself and what a trail leads to. -/
structure EndpointsApart (hop : Expand) (min max : Nat) (items : List ProjectionItem) (seeds : List Row) : Prop where
  apart : seeds.Pairwise fun row row' => ∀ v v', EndsAt base hop min max row v → EndsAt base hop min max row' v' →
    endpointKey L params items hop.targetAlias v≠endpointKey L params items hop.targetAlias v'
  ends : ∀ row ∈ seeds, ∀ v v', ReachedFrom base hop max row v → ReachedFrom base hop max row v' →
    endpointKey L params items hop.targetAlias v=endpointKey L params items hop.targetAlias v' → v=v'
  start : ∀ row ∈ seeds, ∀ v v', ZeroHop hop min row v → ReachedFrom base hop max row v' →
    endpointKey L params items hop.targetAlias v≠endpointKey L params items hop.targetAlias v'

def keyAt (hop : Expand) (items : List ProjectionItem) (r : Row) : Option (List Char) :=
  (r.get hop.targetAlias).bind (endpointKey L params items hop.targetAlias)

variable {L params base} {hop : Expand} {min max : Nat} {items : List ProjectionItem} {window : Nat}

theorem reachedFrom_of_arrives (hmax : 1 < max) (h : Arrives base hop max true row v) :
    ReachedFrom base hop max row v := by
  obtain ⟨n,id,view,hn,hreach,-,hres,rfl⟩ := (arrives_pruned hmax).mp h
  exact ⟨n,id,view,hn,hreach,hres,rfl⟩

/-- The first row of a list is not a duplicate. -/
theorem distinctRows_fills_one {found : List Row} (hcap : cap≤1) (hfills : Fills cap part found)
    (hwhole : distinctRows L params [] items discardInputBindings found = .ok whole) :
    ∃ out, distinctRows L params [] items discardInputBindings part = .ok out ∧ Fills cap out whole := by
  obtain ⟨_,hsame,hwhole⟩ := bind_eq_ok.mp hwhole
  cases hsame
  obtain ⟨projected,hprojected,⟨⟩⟩ := bind_eq_ok.mp hwhole
  obtain ⟨projectedPart,hprojectedPart,hstart,hlen⟩ := exists_gather_one_of_fills hfills hprojected
  refine ⟨_,bind_eq_ok.mpr ⟨part,rfl,bind_eq_ok.mpr ⟨projectedPart,hprojectedPart,rfl⟩⟩,?_,?_⟩
  · obtain ⟨more,rfl⟩ := hstart
    rw [dedupRows_eq_firsts,dedupRows_eq_firsts,firsts_append]
    exact prefix_append _ _
  · have hone : ∀ rows, rows≠[] → 1≤(dedupRows L [] rows).length := by
      intro rows hne
      cases rows with
      | nil => exact absurd rfl hne
      | cons row rows => exact Nat.le_add_left _ _
    by_cases hnil : projectedPart=[]
    · rw [hnil,length_nil,Nat.le_zero,Nat.min_eq_zero_iff] at hlen
      rcases hlen with rfl | hnone
      · exact (Nat.min_le_left _ _).trans (Nat.zero_le _)
      · rw [length_eq_zero_iff.mp hnone]
        exact (Nat.min_le_right _ _).trans (Nat.zero_le _)
    · exact (Nat.min_le_left _ _).trans (hcap.trans (hone _ hnil))

section
variable (h : Endpoint hop min max)
include h

theorem endsAt_of_mem (hout : expandRow base hop min max true emitted row = .ok (emitted',out)) (hr : r∈out) :
    ∃ v, r.get hop.targetAlias=some v ∧ EndsAt base hop min max row v := by
  rcases expandable_of_ok hout with ⟨n,hn⟩ | hnull
  · obtain ⟨emitted'',out',hexpand,-,hbound,hvalues⟩ := expandRow_node base true emitted h hn
    cases hexpand.symm.trans hout
    obtain ⟨v,hv⟩ := hbound r hr
    refine ⟨v,hv,?_⟩
    rcases (hvalues v).mp ⟨r,hr,hv⟩ with ⟨hzero,-⟩ | harrives
    · exact .inl hzero
    · exact .inr (reachedFrom_of_arrives h.max harrives)
  · cases (expandRow_null h hnull).symm.trans hout
    cases hr

theorem nodup_keyAt_row (hapart : EndpointsApart L params base hop min max items seeds) (hrow : row∈seeds)
    (hout : expandRow base hop min max true emitted row = .ok (emitted',out)) :
    (out.map (keyAt L params hop items)).Nodup := by
  rcases expandable_of_ok hout with ⟨n,hn⟩ | hnull
  · obtain ⟨walked,hwalks,hstands,hexpand⟩ := expandRow_walks base true emitted h hn
    cases hexpand.symm.trans hout
    set t := endpointTraversal base hop min max true row
    have htails : (walked.map Step.tail).Nodup := by
      have hnodup : ((search (hopEdges base hop (heldBy hop row)) true max [] [⟨n.id,[]⟩]).map Walk.tail).Nodup :=
        (nodup_search max [] [⟨n.id,[]⟩]).1
      rwa [← hwalks,map_map] at hnodup
    -- the end of a walk, and the key that its row has
    have hkey : ∀ step ∈ walked.filter fun step => t.isResult step.tail,
        ∃ view, lookupNodeById base.graph step.tail=some view ∧ ReachedFrom base hop max row (.node view) ∧
          keyAt L params hop items (t.hitRow step)=endpointKey L params items hop.targetAlias (.node view) := by
      intro step hstep
      obtain ⟨hmem,hres⟩ := mem_filter.mp hstep
      obtain ⟨view,hview,hget⟩ := Traversal.get_hitRow (h.plain base true row) (hstands step hmem)
      refine ⟨view,hview,?_,by rw [keyAt,show Row.get _ hop.targetAlias = _ from hget]; rfl⟩
      have hview : lookupNodeById base.graph step.tail=some view := hview
      have hresult : hop.targetLabels.all view.labels.contains=true := by
        have hany : (lookupNodeById base.graph step.tail).any
          (fun view => hop.targetLabels.all view.labels.contains)=true := hres
        simpa only [hview,Option.any_some] using hany
      refine reachedFrom_of_arrives h.max ⟨n,step.tail,view,hn,?_,⟨hview,hresult⟩,rfl⟩
      rw [← hwalks,map_map]
      exact mem_map_of_mem hmem
    rw [map_append,nodup_append]
    refine ⟨?_,?_,?_⟩
    · unfold zeroRows
      split
      · exact nodup_singleton _
      · exact nodup_nil
    · rw [map_map]
      refine pairwise_map.mpr ?_
      have hpair := (pairwise_map.mp htails).sublist (filter_sublist (p := fun step : Step => t.isResult step.tail))
      refine hpair.imp_of_mem fun {a b} ha hb hne heq => ?_
      obtain ⟨view,hview,hreach,hkeyA⟩ := hkey a ha
      obtain ⟨view',hview',hreach',hkeyB⟩ := hkey b hb
      rw [Function.comp_apply,Function.comp_apply,hkeyA,hkeyB] at heq
      cases hapart.ends row hrow _ _ hreach hreach' heq
      exact hne ((lookupNodeById_id hview).symm.trans (lookupNodeById_id hview'))
    · intro k hk k' hk'
      obtain ⟨r,hr,rfl⟩ := mem_map.mp hk
      obtain ⟨r',hr',rfl⟩ := mem_map.mp hk'
      obtain ⟨step,hstep,rfl⟩ := mem_map.mp hr'
      obtain ⟨view,-,hreach,hkeyB⟩ := hkey step hstep
      unfold zeroRows at hr
      split at hr
      · rename_i hzero
        rw [mem_singleton.mp hr,hkeyB,keyAt,h.get_zeroRow base true row n]
        rw [Bool.and_eq_true,Bool.and_eq_true,beq_iff_eq] at hzero
        exact hapart.start row hrow _ _ ⟨hzero.1.1,n,hn,hzero.1.2,rfl⟩ hreach
      · cases hr
  · cases (expandRow_null h hnull).symm.trans hout
    exact nodup_nil

theorem nodup_keyAt (hapart : EndpointsApart L params base hop min max items seeds)
    (hok : expandUpTo base hop min max true window none emitted seeds = .ok whole) :
    (∀ r ∈ whole, ∃ row ∈ seeds, ∃ v, r.get hop.targetAlias=some v ∧ EndsAt base hop min max row v) ∧
      (whole.map (keyAt L params hop items)).Nodup := by
  induction seeds generalizing emitted whole with
  | nil =>
    cases hok
    exact ⟨forall_mem_nil _,nodup_nil⟩
  | cons row seeds ih =>
    obtain ⟨⟨emitted',out⟩,hout,hok⟩ := bind_eq_ok.mp hok
    obtain ⟨rest,hrest,⟨⟩⟩ := bind_eq_ok.mp hok
    obtain ⟨hfirst,hseeds⟩ := pairwise_cons.mp hapart.apart
    have hmem := fun r (hr : r∈out) => endsAt_of_mem h hout hr
    obtain ⟨hrestMem,hrestNodup⟩ := ih ⟨hseeds,fun row hrow => hapart.ends row (.tail _ hrow),
      fun row hrow => hapart.start row (.tail _ hrow)⟩ hrest
    refine ⟨fun r hr => ?_,?_⟩
    · rcases mem_append.mp hr with hr | hr
      · exact ⟨row,.head _,hmem r hr⟩
      · obtain ⟨row',hrow',hv⟩ := hrestMem r hr
        exact ⟨row',.tail _ hrow',hv⟩
    · rw [map_append,nodup_append]
      refine ⟨nodup_keyAt_row h hapart (.head _) hout,hrestNodup,fun k hk k' hk' => ?_⟩
      obtain ⟨r,hr,rfl⟩ := mem_map.mp hk
      obtain ⟨r',hr',rfl⟩ := mem_map.mp hk'
      obtain ⟨v,hv,hends⟩ := hmem r hr
      obtain ⟨row',hrow',v',hv',hends'⟩ := hrestMem r' hr'
      rw [keyAt,keyAt,hv,hv']
      exact hfirst row' hrow' v v' hends hends'

theorem distinct_fills (hitems : ∀ item ∈ items, reads item.expression ⊆ [hop.targetAlias]) (hwindow : 0<window)
    (cap : Nat) {window' : Nat} {found : List Row} (hapart : EndpointsApart L params base hop min max items seeds)
    (hfound : expandUpTo base hop min max true window' none [] seeds = .ok found)
    (hwhole : distinctRows L params [] items true found = .ok whole) :
    ∃ part, (do
      let found ← expandUpTo base hop min max true window (some cap) [] seeds
      distinctRows L params [] items true found) = .ok part ∧ Fills cap part whole := by
  obtain ⟨_,hsame,hwhole⟩ := bind_eq_ok.mp hwhole
  cases hsame
  obtain ⟨projected,hprojected,hwhole⟩ := bind_eq_ok.mp hwhole
  obtain ⟨hends,hnodup⟩ := nodup_keyAt h hapart hfound
  obtain ⟨part,hpart,hfills⟩ := expandUpTo_fills hwindow cap hfound
  obtain ⟨projectedPart,hprojectedPart,hfillsPart⟩ := exists_gather_one_of_fills hfills hprojected
  have hkeys : found.map (keyAt L params hop items)=projected.map fun p => some (rowFingerprint L p) := by
    refine map_eq_map (gather_one_eq_ok.mp hprojected) fun r hr p hp => ?_
    obtain ⟨row,-,v,hv,-⟩ := hends r hr
    rw [keyAt,hv]
    exact endpointKey_eq hitems hv hp
  have hfresh : ∀ rows, (rows.map fun p => some (rowFingerprint L p)).Nodup → dedupRows L [] rows=rows := by
    intro rows hrows
    refine dedupRows_eq ?_ fun _ _ => not_mem_nil
    rw [← Function.comp_def,← map_map] at hrows
    exact hrows.of_map
  rw [hkeys] at hnodup
  rw [hfresh _ hnodup] at hwhole
  cases hwhole
  refine ⟨projectedPart,?_,hfillsPart⟩
  have hstart := (hfillsPart.1.map fun p => some (rowFingerprint L p)).sublist
  refine bind_eq_ok.mpr ⟨part,hpart,bind_eq_ok.mpr ⟨part,rfl,bind_eq_ok.mpr ⟨projectedPart,hprojectedPart,?_⟩⟩⟩
  rw [hfresh _ (hnodup.sublist hstart)]
  rfl

end

end

section

variable (L : Scalars) (C : Callees) (params : Params) (base : Base)

/-- What the operators that pass a budget on must be like: from two rows on the ends that a search for distinct
endpoints finds are projected to different rows, and between bound nodes the search for all seeds of a source finds
what each of them finds on its own. -/
def Fillable (outer : Option Row) (cap : Nat) : LogicalPlan → Prop
  | .project input items distinct discardInputBindings =>
    if distinct then 2≤cap →
      ∀ i min max seeds, endpointOf L C params base outer input=some i → i.keys=[] →
        endpointBounds params i.hop i.keys items = .ok (some (min,max)) → i.seeds = .ok seeds →
        discardInputBindings=true ∧ i.hop.relAlias≠some i.hop.targetAlias ∧
          EndpointsApart L params base i.hop min (clampHopMax max) items seeds
    else Fillable outer cap input
  | .expand input hop => hop.shortest ≠ .none → hop.backReference=true → ∀ seeds,
      execute L C params base input outer none = .ok seeds →
      expandRows params base hop none seeds=gather (seedRows params base hop) seeds
  | .apply input _ optional => if optional.isSome then Fillable outer cap input else True
  | _ => True

variable {L C params base} {items : List ProjectionItem} {discardInputBindings : Bool}

theorem scan_fills (binding : String) (cap : Nat) (nodes : List NodeValue) :
    Fills cap (bindNodes binding Row.new (nodes.take cap)) (bindNodes binding Row.new nodes) :=
  (fills_take cap nodes).map _

theorem nodeByPropertyValue_fills (label binding property : String) (value : Expression) (cap : Nat)
    {rows whole : List Row}
    (h : gather (nodeByPropertyValueRow L params base label binding property value true none) rows = .ok whole) :
    ∃ part, gatherUpTo (nodeByPropertyValueRow L params base label binding property value true) (some cap) rows =
      .ok part ∧ Fills cap part whole := by
  refine exists_gatherUpTo cap (fun row _ room bs _ hbs => ?_) h
  obtain ⟨v,hv,⟨⟩⟩ := bind_eq_ok.mp hbs
  exact ⟨_,bind_eq_ok.mpr ⟨v,hv,rfl⟩,(fills_take room _).map _⟩

theorem applyRow_ne_nil (pad : List String) (row : Row) (subRows : List Row) : applyRow (some pad) row subRows≠[] := by
  unfold applyRow
  split
  · exact cons_ne_nil _ _
  · rename_i hne
    simpa using hne

section
variable {endpoint : Option EndpointInput} {cap : Nat} (hi : 2≤cap → ∀ i min max seeds, endpoint=some i → i.keys=[] →
  endpointBounds params i.hop i.keys items = .ok (some (min,max)) → i.seeds = .ok seeds →
  discardInputBindings=true ∧ i.hop.relAlias≠some i.hop.targetAlias ∧
    EndpointsApart L params base i.hop min (clampHopMax max) items seeds)
include hi

theorem endpointRows_fills {found : Option (List Row)}
    (h : endpointRows L params base items discardInputBindings none endpoint = .ok found) :
    ∃ found', endpointRows L params base items discardInputBindings (some cap) endpoint = .ok found' ∧
      Option.Rel (Fills cap) found' found := by
  cases endpoint with
  | none =>
    cases h
    exact ⟨none,rfl,.none⟩
  | some i =>
    obtain ⟨bounds,hbounds,h⟩ := bind_eq_ok.mp h
    cases bounds with
    | none =>
      cases h
      exact ⟨none,bind_eq_ok.mpr ⟨none,hbounds,rfl⟩,.none⟩
    | some bounds =>
      obtain ⟨min,max⟩ := bounds
      obtain ⟨seeds,hseeds,h⟩ := bind_eq_ok.mp h
      obtain ⟨expanded,hexpanded,h⟩ := bind_eq_ok.mp h
      obtain ⟨whole,hwhole,⟨⟩⟩ := bind_eq_ok.mp h
      rw [ite_self] at hexpanded
      by_cases hkeys : i.keys=[]
      · obtain ⟨found,out,hfound,hout,hfills⟩ : ∃ found out,
            expandUpTo base i.hop min (clampHopMax max) true (firstWindow (some cap)) (some cap) [] seeds = .ok found ∧
            distinctRows L params [] items discardInputBindings found = .ok out ∧ Fills cap out whole := by
          rw [hkeys] at hwhole
          by_cases hcap : cap≤1
          · obtain ⟨found,hfound,hfills⟩ := expandUpTo_fills (firstWindow_pos (some cap)) cap hexpanded
            obtain ⟨out,hout,hfills⟩ := distinctRows_fills_one hcap hfills hwhole
            exact ⟨found,out,hfound,hout,hfills⟩
          · obtain ⟨rfl,hrel,hapart⟩ := hi (by omega) i min max seeds rfl hkeys hbounds hseeds
            obtain ⟨hendpoint,hitems,-⟩ := endpointBounds_some hbounds hrel
            obtain ⟨out,hout,hfills⟩ := distinct_fills hendpoint hitems (firstWindow_pos (some cap)) cap hapart
              hexpanded hwhole
            obtain ⟨found,hfound,hdistinct⟩ := bind_eq_ok.mp hout
            exact ⟨found,out,hfound,hdistinct,hfills⟩
        refine ⟨some out,bind_eq_ok.mpr ⟨_,hbounds,bind_eq_ok.mpr ⟨seeds,hseeds,bind_eq_ok.mpr ⟨found,?_,
          bind_eq_ok.mpr ⟨out,?_,rfl⟩⟩⟩⟩,.some hfills⟩
        · rw [hkeys]
          exact hfound
        · rw [hkeys]
          exact hout
      · -- the budget does not cross the sort
        refine ⟨some whole,bind_eq_ok.mpr ⟨_,hbounds,bind_eq_ok.mpr ⟨seeds,hseeds,bind_eq_ok.mpr ⟨expanded,?_,
          bind_eq_ok.mpr ⟨whole,hwhole,rfl⟩⟩⟩⟩,.some (.refl _ _)⟩
        rw [if_neg (by simpa using hkeys)]
        exact hexpanded

theorem distinctProject_fills {input : Except EvalError (List Row)} {whole : List Row}
    (h : executeProject L params base items true discardInputBindings none endpoint input = .ok whole) :
    ∃ part, executeProject L params base items true discardInputBindings (some cap) endpoint input = .ok part ∧
      Fills cap part whole := by
  obtain ⟨found,hfound,h⟩ := bind_eq_ok.mp h
  obtain ⟨found',hfound',hrel⟩ := endpointRows_fills hi hfound
  cases hrel with
  | none => exact ⟨whole,bind_eq_ok.mpr ⟨none,hfound',h⟩,.refl _ _⟩
  | some hfills =>
    cases h
    exact ⟨_,bind_eq_ok.mpr ⟨_,hfound',rfl⟩,hfills⟩

end

theorem execute_fills (plan : LogicalPlan) (outer : Option Row) (cap : Nat) (rows : List Row)
    (hplan : Fillable L C params base outer cap plan) (hrows : execute L C params base plan outer none = .ok rows) :
    ∃ part, execute L C params base plan outer (some cap) = .ok part ∧ Fills cap part rows := by
  induction plan generalizing rows with
  | nodeScan label binding predicates projection =>
    cases hrows
    exact ⟨_,rfl,scan_fills binding cap _⟩
  | nodeByPropertyValue input label binding property value multi ih =>
    cases multi with
    | false => exact ⟨rows,hrows,.refl _ _⟩
    | true =>
      obtain ⟨seeds,hseeds,hrows⟩ := bind_eq_ok.mp hrows
      rw [if_pos rfl,gatherUpTo_none] at hrows
      obtain ⟨part,hpart,hfills⟩ := nodeByPropertyValue_fills label binding property value cap hrows
      exact ⟨part,bind_eq_ok.mpr ⟨seeds,hseeds,hpart⟩,hfills⟩
  | expand input hop ih =>
    obtain ⟨seeds,hseeds,hrows⟩ := bind_eq_ok.mp hrows
    obtain ⟨bounds,hbounds,-⟩ := bind_eq_ok.mp hrows
    have halone : expandRows params base hop none seeds=gather (seedRows params base hop) seeds := by
      by_cases hmode : hop.shortest = .none ∨ hop.backReference=false
      · exact expandRows_alone hmode seeds hbounds
      · rw [not_or,Bool.not_eq_false] at hmode
        exact hplan hmode.1 hmode.2 seeds hseeds
    obtain ⟨part,hpart,hfills⟩ := expandSeeds_fills hbounds _ cap (halone.symm.trans hrows)
    exact ⟨part,bind_eq_ok.mpr ⟨seeds,hseeds,hpart⟩,hfills⟩
  | project input items distinct discardInputBindings ih =>
    cases distinct with
    | true =>
      rw [execute_project_eq] at hrows ⊢
      exact distinctProject_fills hplan hrows
    | false =>
      rw [execute_project] at hrows ⊢
      obtain ⟨whole,hwhole,hrows⟩ := bind_eq_ok.mp hrows
      obtain ⟨part,hpart,hfills⟩ := ih whole hplan hwhole
      obtain ⟨out,hout,hfillsOut⟩ := exists_gather_one_of_fills hfills hrows
      exact ⟨out,bind_eq_ok.mpr ⟨part,hpart,hout⟩,hfillsOut⟩
  | apply input subplan optional ih ihs =>
    cases optional with
    | none => exact ⟨rows,hrows,.refl _ _⟩
    | some pad =>
      obtain ⟨input',hinput,hrows⟩ := bind_eq_ok.mp hrows
      obtain ⟨part,hpart,hfills⟩ := ih input' hplan hinput
      rw [ite_self,gatherUpTo_none] at hrows
      refine (exists_gatherUpTo_of_fills (f := Function.const _ _) hfills (fun row _ bs hbs => ?_)
        (fun row _ room bs _ hbs => ⟨bs,hbs,.refl _ _⟩) hrows).imp
        fun out hout => ⟨bind_eq_ok.mpr ⟨part,hpart,hout.1⟩,hout.2⟩
      obtain ⟨subRows,-,⟨⟩⟩ := bind_eq_ok.mp hbs
      exact applyRow_ne_nil pad row subRows
  | _ => exact ⟨rows,hrows,.refl _ _⟩

end

/-- `1 → 3 ← 2` and `4 → 5`. -/
def twoToOne : Base where
  graph :=
    { nodes := ((((∅ : Overlay).insert 1 ⟨["S", "T"],∅⟩).insert 2 ⟨["S"],∅⟩).insert 3 ⟨[],∅⟩).insert 4 ⟨["S"],∅⟩
        |>.insert 5 ⟨[],∅⟩
      edges := ((∅ : Edges).insert ⟨"R",1,3⟩ ∅).insert ⟨"R",2,3⟩ ∅ |>.insert ⟨"R",4,5⟩ ∅ }
  edgeTypes := ["R"]
  typed := by decide
  distinct := List.nodup_singleton "R"

/-- `MATCH (a:label)-[:R*1..3]->(x) RETURN DISTINCT x`. -/
def distinctEnds (label : String) : LogicalPlan :=
  .project (.expand (.nodeScan (some label) "a" [] none) (upToThree .right)) [⟨.var "x", "x"⟩] true true

end NamiDB.Cypher
