import NamiDB.Cypher.Projection
import NamiDB.Cypher.Windows

/-! The plan of a RETURN or WITH clause returns the rows that the clause says. -/
namespace NamiDB.Cypher
open Query Storage Lib List Except

section

variable {L : Scalars} {params : Params} {keys keys' : List OrderKey} {skip limit : Nat}

theorem compareKeys_congr (h : keys'.map OrderKey.descending=keys.map OrderKey.descending)
    (as bs : List RuntimeValue) : compareKeys L keys' as bs=compareKeys L keys as bs := by
  induction keys generalizing keys' as bs with
  | nil =>
    rw [map_nil,map_eq_nil_iff] at h
    rw [h]
  | cons key keys ih =>
    cases keys' with
    | nil => cases h
    | cons key' keys' =>
      rw [map_cons,map_cons,cons.injEq] at h
      cases as with
      | nil => rfl
      | cons a as =>
        cases bs with
        | nil => rfl
        | cons b bs => rw [compareKeys,compareKeys,h.1,ih h.2]

end

section

variable {L : Scalars} {C : Callees} {params : Params} {base : Base} {columns : List ProjectionItem}
  {keys : List OrderKey}

theorem execute_distinct (cap : Option Nat)
    (hunsearched : ∀ i, endpointOf L C params base outer input=some i →
      endpointBounds params i.hop i.keys columns = .ok none) :
    execute L C params base (.project input columns true true) outer cap=(do
      let rows ← execute L C params base input outer none
      let projected ← projectRows L params columns true rows
      pure (dedupRows L [] projected)) := by
  rw [execute_project_eq,executeProject,if_pos rfl,if_pos rfl]
  cases hendpoint : endpointOf L C params base outer input with
  | none => rfl
  | some i =>
    rw [endpointRows,hunsearched i hendpoint]
    rfl

def valuesOf (L : Scalars) (params : Params) (keys : List OrderKey) (s : Shown) : List RuntimeValue :=
  (sortValues L params keys s).toOption.getD []

theorem valuesOf_eq (h : sortValues L params keys s = .ok vs) : valuesOf L params keys s=vs := by
  rw [valuesOf,h]
  rfl

theorem showRows_ok (h : showRows L params columns rows = .ok shown) :
    shown.map Shown.row=rows ∧ ∀ s ∈ shown, projectRow L params columns true s.row = .ok s.out := by
  have hall := gather_one_eq_ok.mp h
  clear h
  induction hall with
  | nil => exact ⟨rfl,forall_mem_nil _⟩
  | @cons row s rows shown hs hall ih =>
    obtain ⟨hrows,hproject⟩ := ih
    cases hout : projectRow L params columns true row with
    | error e => rw [hout] at hs; cases hs
    | ok out =>
      rw [hout] at hs
      cases hs
      exact ⟨by rw [map_cons,hrows],forall_mem_cons.mpr ⟨hout,hproject⟩⟩

theorem projectRows_shown {ss : List Shown} (h : ∀ s ∈ ss, projectRow L params columns true s.row = .ok s.out) :
    projectRows L params columns true (ss.map Shown.row) = .ok (ss.map Shown.out) := by
  rw [projectRows,gather_one_eq_ok,forall₂_map_left_iff,forall₂_map_right_iff,forall₂_same]
  exact h

structure Shows (L : Scalars) (params : Params) (columns : List ProjectionItem) (distinct : Bool)
    (keys : List OrderKey) (rows : List Row) (shown kept : List Shown) : Prop where
  input : shown.map Shown.row=rows
  out : ∀ s ∈ shown, projectRow L params columns true s.row = .ok s.out
  chosen : kept=if distinct then firstShown L shown else shown
  values : ∀ s ∈ kept, sortValues L params keys s = .ok (valuesOf L params keys s)

def orderOf (L : Scalars) (params : Params) (keys : List OrderKey) : Shown → Shown → Ordering :=
  byKeys L keys (valuesOf L params keys)

theorem clauseRows_ok (h : clauseRows L params columns distinct keys skip limit rows = .ok out) :
    ∃ skip' limit' shown kept, resolveRowCount params "SKIP" skip = .ok skip' ∧
      resolveRowCount params "LIMIT" limit = .ok limit' ∧ Shows L params columns distinct keys rows shown kept ∧
      out=(rowWindow skip' limit' (kept.mergeSort (leOf (orderOf L params keys)))).map Shown.out := by
  obtain ⟨skip',hskip,h⟩ := bind_eq_ok.mp h
  obtain ⟨limit',hlimit,h⟩ := bind_eq_ok.mp h
  obtain ⟨shown,hshown,h⟩ := bind_eq_ok.mp h
  obtain ⟨keyed,hkeyed,⟨⟩⟩ := bind_eq_ok.mp h
  obtain ⟨hrows,hout⟩ := showRows_ok hshown
  generalize hkept : (if distinct then firstShown L shown else shown)=kept at hkeyed
  have hall := gather_one_eq_ok.mp hkeyed
  have hvalues : ∀ s ∈ kept, sortValues L params keys s = .ok (valuesOf L params keys s) := by
    intro s hs
    obtain ⟨b,-,hb⟩ := mem_of_forall₂_left hall hs
    cases hv : sortValues L params keys s with
    | error e => rw [hv] at hb; cases hb
    | ok vs => rw [valuesOf_eq hv]
  have heq : keyed=kept.map fun s => (valuesOf L params keys s,s) := by
    refine ok.inj (hkeyed.symm.trans ?_)
    rw [gather_one_eq_ok,forall₂_map_right_iff,forall₂_same]
    intro s hs
    rw [hvalues s hs]
    rfl
  refine ⟨skip',limit',shown,kept,hskip,hlimit,⟨hrows,hout,hkept.symm,hvalues⟩,?_⟩
  have hsort : (kept.mergeSort (leOf (orderOf L params keys))).map (fun s => (valuesOf L params keys s,s)) =
      (kept.map fun s => (valuesOf L params keys s,s)).mergeSort fun a b => compareKeys L keys a.1 b.1 != .gt :=
    map_mergeSort fun _ _ _ _ => rfl
  rw [heq,← hsort,map_map,← rowWindow_map]
  rfl

end

section

variable {L : Scalars} {params : Params} {base : Base} {hop : Expand} {min max : Nat} {prune : Bool}
  {columns : List ProjectionItem} {keys : List OrderKey} {rows seeds found out : List Row} {shown : List Shown}
  {values : Shown → List RuntimeValue} {a b : Row}

def EndsStored (base : Base) (hop : Expand) (r : Row) : Prop :=
  ∃ v, r.get hop.targetAlias=some (.node v) ∧ lookupNodeById base.graph v.id=some v

theorem get_target_eq (ha : EndsStored base hop a) (hb : EndsStored base hop b) (h : endId hop a=endId hop b) :
    a.get hop.targetAlias=b.get hop.targetAlias := by
  obtain ⟨v,hv,hstored⟩ := ha
  obtain ⟨w,hw,hstored'⟩ := hb
  rw [endId,endId,hv,hw] at h
  rw [Option.some.inj h] at hstored
  cases hstored.symm.trans hstored'
  rw [hv,hw]

theorem executeExpand_stored (h : Endpoint hop min max)
    (hstored : min=0 → ∀ n ∈ starts hop rows, lookupNodeById base.graph n.id=some n)
    (hok : executeExpand base hop min max prune [] rows = .ok out) : ∀ r ∈ out, EndsStored base hop r := by
  intro r hr
  obtain ⟨hbound,hvalues⟩ := executeExpand_values h hok
  obtain ⟨v,hv⟩ := hbound r hr
  rcases (hvalues v).mp ⟨r,hr,hv⟩ with ⟨hmin,n,hn,rfl⟩ | ⟨row,-,n,id,view,-,-,⟨hview,-⟩,rfl⟩
  · refine ⟨n,hv,hstored hmin n ?_⟩
    unfold zeroStarts at hn
    split at hn
    · exact (firsts_sublist _ _).subset hn
    · exact hn
  · exact ⟨view,hv,by rw [lookupNodeById_id hview,hview]⟩

/-- The first row that ends at a node stands for all of them. -/
def repOf (hop : Expand) (shown : List Shown) (x : Option NodeId) : Shown :=
  (shown.find? fun s => endId hop s.row=x).getD ⟨Row.new,Row.new⟩

theorem repOf_spec (hx : x∈shown.map fun s => endId hop s.row) :
    repOf hop shown x∈shown ∧ endId hop (repOf hop shown x).row=x := by
  obtain ⟨s,hs,rfl⟩ := mem_map.mp hx
  obtain ⟨t,ht⟩ := Option.isSome_iff_exists.mp
    (find?_isSome.mpr ⟨s,hs,decide_eq_true rfl⟩ : (shown.find? fun t => endId hop t.row=endId hop s.row).isSome=true)
  rw [repOf,ht]
  exact ⟨mem_of_find?_eq_some ht,by simpa using find?_some ht⟩

variable (hendpoint : Endpoint hop min max) (hdirected : hop.direction ≠ .both)
  (hstored : min=0 → ∀ n ∈ starts hop seeds, lookupNodeById base.graph n.id=some n)
  (hitems : ∀ item ∈ columns, reads item.expression ⊆ [hop.targetAlias])
  (hkeys : readsAll (keys.map OrderKey.expression) ⊆ [hop.targetAlias])
  (hall : executeExpand base hop min max false [] seeds = .ok (shown.map Shown.row))
  (hfound : executeExpand base hop min max true [] seeds = .ok found)
  (hout : ∀ s ∈ shown, projectRow L params columns true s.row = .ok s.out)
  (hvalues : ∀ s ∈ shown, evaluateAll L params (keys.map OrderKey.expression) s.row.get = .ok (values s))

include hendpoint hdirected hstored hitems hkeys hall hfound hout hvalues

/-- A DISTINCT projection over the ends that the search finds, where the pattern has a direction. -/
theorem distinctRows_search (hswap : Swaps L) (htrans : TransOn (byKeys L keys values) shown)
    (halike : ∀ a ∈ shown, ∀ b ∈ shown, rowFingerprint L a.out=rowFingerprint L b.out →
      byKeys L keys values a b = .eq) :
    distinctRows L params keys columns true found =
      .ok (((firstShown L shown).mergeSort (leOf (byKeys L keys values))).map Shown.out) := by
  let rep := repOf hop shown
  let idOf (s : Shown) : Option NodeId := endId hop s.row
  let fpOf (x : Option NodeId) : List Char := rowFingerprint L (rep x).out
  let order : Option NodeId → Option NodeId → Ordering := byKeys L keys fun x => values (rep x)
  let rowOrder (a b : Row) : Ordering := order (endId hop a) (endId hop b)
  have hfirsts : firsts id [] (found.map (endId hop))=firsts id [] (shown.map idOf) := by
    have hfirsts := executeExpand_firsts hendpoint hdirected hall hfound [] fun x hx => nomatch hx
    rwa [map_map] at hfirsts
  have hstoredAll := executeExpand_stored hendpoint hstored hall
  have hstoredFound := executeExpand_stored hendpoint hstored hfound
  -- rows with one end are projected to one row and have one key
  have hrow : ∀ r, EndsStored base hop r → endId hop r∈shown.map idOf →
      projectRow L params columns true r = .ok (rep (endId hop r)).out ∧
      evaluateAll L params (keys.map OrderKey.expression) r.get = .ok (values (rep (endId hop r))) := by
    intro r hr hid
    obtain ⟨hmem,hsame⟩ := repOf_spec hid
    have hagree : Agree [hop.targetAlias] r.get (rep (endId hop r)).row.get := by
      intro x hx
      cases mem_singleton.mp hx
      exact get_target_eq hr (hstoredAll _ (mem_map_of_mem hmem)) hsame.symm
    rw [projectRow_congr hitems hagree,evaluateAll_congr L params _ (hagree.mono hkeys)]
    exact ⟨hout _ hmem,hvalues _ hmem⟩
  have hshown : ∀ s ∈ shown, (rep (idOf s)).out=s.out ∧ values (rep (idOf s))=values s := by
    intro s hs
    obtain ⟨hproject,hevaluate⟩ := hrow s.row (hstoredAll _ (mem_map_of_mem hs)) (mem_map_of_mem hs)
    exact ⟨ok.inj (hproject.symm.trans (hout s hs)),ok.inj (hevaluate.symm.trans (hvalues s hs))⟩
  have hids : ∀ x ∈ found.map (endId hop), x∈shown.map idOf := by
    intro x hx
    obtain ⟨y,hy,heq⟩ := exists_mem_firsts (f := id) hx not_mem_nil
    rw [hfirsts] at hy
    cases (heq : y=x)
    exact (firsts_sublist _ _).subset hy
  have hfoundRow := fun r (hr : r∈found) => hrow r (hstoredFound r hr) (hids _ (mem_map_of_mem hr))
  have hsorted : orderRows L params keys found = .ok (found.mergeSort (leOf rowOrder)) := by
    unfold orderRows
    split
    · rename_i hnil
      rw [List.isEmpty_iff] at hnil
      rw [mergeSort_of_pairwise]
      simp only [rowOrder,order,hnil]
      exact pairwise_of_forall fun _ _ => rfl
    · have hsort := sortRows_map (g := id) fun r hr => (hfoundRow r hr).2
      rwa [List.map_id,List.map_id] at hsort
  have hprojected : projectRows L params columns true (found.mergeSort (leOf rowOrder)) =
      .ok (((found.map (endId hop)).mergeSort (leOf order)).map fun x => (rep x).out) := by
    have hmap : (found.mergeSort (leOf rowOrder)).map (endId hop) =
        (found.map (endId hop)).mergeSort (leOf order) := map_mergeSort fun _ _ _ _ => rfl
    rw [← hmap,map_map,projectRows,gather_one_eq_ok,forall₂_map_right_iff,forall₂_same]
    exact fun r hr => (hfoundRow r (mem_mergeSort.mp hr)).1
  have hkept : (firstShown L shown).map idOf=firsts fpOf [] (found.map (endId hop)) := by
    have hfiner : ∀ xs, firsts fpOf [] (firsts id [] xs)=firsts fpOf [] xs := fun xs =>
      firsts_firsts (by simp) fun _ _ _ _ heq => congrArg fpOf heq
    rw [← hfiner (found.map _),hfirsts,hfiner,map_firsts]
    exact congrArg (map idOf) (firsts_congr_key fun s hs => congrArg (rowFingerprint L) (hshown s hs).1.symm)
  have hmem : ∀ s ∈ firstShown L shown, s∈shown := fun s hs => (firsts_sublist _ _).subset hs
  have hresult : ((firstShown L shown).mergeSort (leOf (byKeys L keys values))).map Shown.out =
      ((firsts fpOf [] (found.map (endId hop))).mergeSort (leOf order)).map fun x => (rep x).out := by
    have hmap : ((firstShown L shown).mergeSort (leOf (byKeys L keys values))).map idOf =
        ((firstShown L shown).map idOf).mergeSort (leOf order) := by
      refine map_mergeSort fun a ha b hb => ?_
      simp only [leOf,order,byKeys,(hshown a (hmem a ha)).2,(hshown b (hmem b hb)).2]
    rw [← hkept,← hmap,map_map]
    exact map_congr_left fun s hs => (hshown s (hmem s (mem_mergeSort.mp hs))).1.symm
  refine bind_eq_ok.mpr ⟨_,hsorted,bind_eq_ok.mpr ⟨_,hprojected,?_⟩⟩
  rw [dedupRows_eq_firsts,map_firsts,hresult]
  refine congrArg (fun l => ok (map (fun x => (rep x).out) l)) ?_
  refine firsts_mergeSort_of_mem (fun a b => compareKeys_swap hswap keys _ _) ?_ ?_
  · exact fun a ha b hb c hc => htrans _ (repOf_spec (hids a ha)).1 _ (repOf_spec (hids b hb)).1 _
      (repOf_spec (hids c hc)).1
  · exact fun a ha b hb => halike _ (repOf_spec (hids a ha)).1 _ (repOf_spec (hids b hb)).1

end

section

variable {L : Scalars} {C : Callees} {params : Params} {base : Base} {outer : Option Row} {input : LogicalPlan}
  {columns : List ProjectionItem} {keys : List OrderKey} {hop : Expand} {i : EndpointInput} {min max : Nat}
  {rows seeds found out : List Row} {shown : List Shown}

theorem expandUpTo_eq (endpointBfs : Bool) (window : Nat) (emitted : List NodeId) (rows : List Row) :
    expandUpTo base hop min max endpointBfs window none emitted rows =
      executeExpand base hop min max endpointBfs emitted rows := by
  induction rows generalizing emitted with
  | nil => rfl
  | cons row rows ih =>
    rw [expandUpTo,executeExpand,expandRowUpTo_none,if_neg (by decide)]
    simp only [Option.map_none,ih]

theorem exists_endpointBounds {resolved : Option (Nat × Nat)} (h : resolveLength params hop.length = .ok resolved)
    (keys : List OrderKey) (items : List ProjectionItem) :
    ∃ bounds, endpointBounds params hop keys items = .ok bounds := by
  unfold endpointBounds
  split
  · exact ⟨_,rfl⟩
  · dsimp only
    split
    · exact ⟨_,rfl⟩
    · simp only [h,bind,Except.bind]
      split
      · exact ⟨_,rfl⟩
      · exact ⟨_,rfl⟩

theorem endpointOf_some (h : endpointOf L C params base outer input=some i) :
    ∃ below, i.seeds=execute L C params base below outer none ∧ (i.keys=[] ∧ input = .expand below i.hop ∨
      i.keys≠[] ∧ input = .topN (.expand below i.hop) i.keys (.const 0) (.const noLimit)) := by
  unfold endpointOf at h
  split at h
  · cases h
    exact ⟨_,rfl,.inl ⟨rfl,rfl⟩⟩
  · split at h
    · rename_i hopen
      obtain ⟨rfl,rfl,hkeys⟩ := hopen
      cases h
      exact ⟨_,rfl,.inr ⟨by simpa using hkeys,rfl⟩⟩
    · cases h
  · cases h

theorem exists_resolveLength (hi : endpointOf L C params base outer input=some i)
    (hrows : execute L C params base input outer none = .ok rows) :
    ∃ length, resolveLength params i.hop.length = .ok length := by
  have hexpand : ∀ below out, execute L C params base (.expand below i.hop) outer none = .ok out →
      ∃ length, resolveLength params i.hop.length = .ok length := by
    intro below out h
    obtain ⟨seeds,-,h⟩ := bind_eq_ok.mp h
    obtain ⟨length,hlength,-⟩ := bind_eq_ok.mp h
    exact ⟨length,hlength⟩
  obtain ⟨below,-,⟨-,rfl⟩ | ⟨hkeys,rfl⟩⟩ := endpointOf_some hi
  · exact hexpand below rows hrows
  · obtain ⟨skip,-,hrows⟩ := bind_eq_ok.mp hrows
    obtain ⟨limit,-,hrows⟩ := bind_eq_ok.mp hrows
    obtain ⟨out,hout,-⟩ := bind_eq_ok.mp hrows
    have hnone : indexedRows C base (.expand below i.hop) i.keys skip limit=none := by
      unfold indexedRows
      split
      · rfl
      · rfl
    rw [hnone,Option.elim_none,rowBudget,if_neg (by simp [hkeys])] at hout
    exact hexpand below out hout

theorem unsearched_or (columns : List ProjectionItem) (hrows : execute L C params base input outer none = .ok rows) :
    (∀ i, endpointOf L C params base outer input=some i → endpointBounds params i.hop i.keys columns = .ok none) ∨
      ∃ i min max, endpointOf L C params base outer input=some i ∧
        endpointBounds params i.hop i.keys columns = .ok (some (min,max)) := by
  cases hi : endpointOf L C params base outer input with
  | none => exact .inl fun _ h => nomatch h
  | some i =>
    obtain ⟨length,hlength⟩ := exists_resolveLength hi hrows
    obtain ⟨bounds,hbounds⟩ := exists_endpointBounds hlength i.keys columns
    cases bounds with
    | none =>
      refine .inl fun i' hi' => ?_
      cases hi'
      exact hbounds
    | some bounds => exact .inr ⟨i,bounds.1,bounds.2,rfl,hbounds⟩

/-- A DISTINCT projection that no search answers projects the rows below it and keeps the first of each kind; what a
search answers is to agree. -/
theorem execute_distinctRows (hrows : execute L C params base input outer none = .ok (shown.map Shown.row))
    (hout : ∀ s ∈ shown, projectRow L params columns true s.row = .ok s.out)
    (hsearched : ∀ i min max, endpointOf L C params base outer input=some i →
      endpointBounds params i.hop i.keys columns = .ok (some (min,max)) →
      execute L C params base (.project input columns true true) outer none =
        .ok ((firstShown L shown).map Shown.out)) :
    execute L C params base (.project input columns true true) outer none =
      .ok ((firstShown L shown).map Shown.out) := by
  rcases unsearched_or columns hrows with hunsearched | ⟨i,min,max,hi,hbounds⟩
  · rw [execute_distinct none hunsearched,hrows]
    refine bind_eq_ok.mpr ⟨_,rfl,bind_eq_ok.mpr ⟨_,projectRows_shown hout,?_⟩⟩
    rw [dedupRows_eq_firsts,map_firsts]
    rfl
  · exact hsearched i min max hi hbounds

theorem execute_search (hi : endpointOf L C params base outer input=some i)
    (hbounds : endpointBounds params i.hop i.keys columns = .ok (some (min,max))) (hseeds : i.seeds = .ok seeds)
    (hfound : executeExpand base i.hop min (clampHopMax max) true [] seeds = .ok found)
    (hout : distinctRows L params i.keys columns true found = .ok out) :
    execute L C params base (.project input columns true true) outer none = .ok out := by
  rw [execute_project_eq,hi]
  refine bind_eq_ok.mpr ⟨some out,bind_eq_ok.mpr ⟨_,hbounds,bind_eq_ok.mpr ⟨seeds,hseeds,bind_eq_ok.mpr
    ⟨found,?_,bind_eq_ok.mpr ⟨out,hout,rfl⟩⟩⟩⟩,rfl⟩
  rw [ite_self,expandUpTo_eq]
  exact hfound

/-- A DISTINCT projection over a pattern with a direction, which the search for endpoints answers. -/
theorem execute_searched {below : LogicalPlan} (values : Shown → List RuntimeValue) (hswap : Swaps L)
    (hi : endpointOf L C params base outer input=some i) (hbelow : i.seeds=execute L C params base below outer none)
    (hrows : execute L C params base (.expand below i.hop) outer none = .ok (shown.map Shown.row))
    (hbounds : endpointBounds params i.hop i.keys columns = .ok (some (min,max)))
    (hdirected : i.hop.direction ≠ .both) (hrel : i.hop.relAlias≠some i.hop.targetAlias)
    (hstored : min=0 → ∀ seeds, i.seeds = .ok seeds → ∀ n ∈ starts i.hop seeds,
      lookupNodeById base.graph n.id=some n)
    (hout : ∀ s ∈ shown, projectRow L params columns true s.row = .ok s.out)
    (hvalues : ∀ s ∈ shown, evaluateAll L params (i.keys.map OrderKey.expression) s.row.get = .ok (values s))
    (htrans : TransOn (byKeys L i.keys values) shown)
    (halike : ∀ a ∈ shown, ∀ b ∈ shown, rowFingerprint L a.out=rowFingerprint L b.out →
      byKeys L i.keys values a b = .eq) :
    execute L C params base (.project input columns true true) outer none =
      .ok (((firstShown L shown).mergeSort (leOf (byKeys L i.keys values))).map Shown.out) := by
  obtain ⟨seeds,hseeds,hrows⟩ := bind_eq_ok.mp hrows
  rw [← hbelow] at hseeds
  obtain ⟨hendpoint,hitems,hkeys,length,hlength,hpair⟩ := endpointBounds_some hbounds hrel
  have hplain : i.hop.shortest = .none := by
    by_contra hshortest
    rw [endpointBounds,if_pos (by simp [hshortest])] at hbounds
    cases hbounds
  have hall : executeExpand base i.hop min (clampHopMax max) false [] seeds = .ok (shown.map Shown.row) := by
    rw [← expandUpTo_eq false 0,expandUpTo_none]
    have hrows := (expandRows_plain hplain hlength seeds).symm.trans hrows
    rwa [hpair] at hrows
  obtain ⟨found,hfound⟩ := exists_executeExpand base true [] hendpoint (expandable_of_executeExpand hall)
  have hreads : readsAll (i.keys.map OrderKey.expression) ⊆ [i.hop.targetAlias] := readsAll_subset hkeys
  exact execute_search hi hbounds hseeds hfound (distinctRows_search hendpoint hdirected
    (fun h => hstored h seeds hseeds) hitems hreads hall hfound hout hvalues hswap htrans halike)

end

section

variable {L : Scalars} {C : Callees} {params : Params} {base : Base} {outer : Option Row} {input : LogicalPlan}
  {columns : List ProjectionItem} {distinct : Bool} {keys : List OrderKey} {skip limit : RowCount}
  {skip' limit' : Nat} {rows : List Row} {shown kept : List Shown} {s : Shown} {i : EndpointInput}

theorem isWindowed_eq_false (h : isWindowed skip limit=false) : skip = .const 0 ∧ limit = .const noLimit := by
  simpa [isWindowed] using h

variable (keep : List String)

theorem descending_substituteKeys :
    (substituteKeys columns keep keys).map OrderKey.descending=keys.map OrderKey.descending := by
  rw [substituteKeys,map_map]
  rfl

theorem expression_substituteKeys : (substituteKeys columns keep keys).map OrderKey.expression =
    substituteAll (aliasMap columns) keep (keys.map OrderKey.expression) := by
  induction keys with
  | nil => rfl
  | cons key keys ih => rw [map_cons,substituteAll,← ih]; rfl

theorem substituteKeys_all : substituteKeys columns (columns.map ProjectionItem.binding) keys=keys := by
  refine (map_congr_left fun key _ => ?_).trans (map_id keys)
  rw [substituteAliases_keep fun name => mem_of_aliasMap]
  rfl

def IsShown (L : Scalars) (params : Params) (columns : List ProjectionItem) (rows : List Row) (s : Shown) : Prop :=
  s.row∈rows ∧ projectRow L params columns true s.row = .ok s.out

theorem Shows.isShown (h : Shows L params columns distinct keys rows shown kept) (hs : s∈shown) :
    IsShown L params columns rows s :=
  ⟨h.input ▸ mem_map_of_mem hs,h.out s hs⟩

/-- What the layout of the plan asks for: keys that can be moved below the projection, or above it where duplicates
are removed and rows cut off; that do not tell duplicates apart and compare consistently; below a LIMIT an index that
agrees with the order, and without an order an input that may be asked for its first rows; and for a DISTINCT
projection that a search for endpoints answers, a pattern with a direction whose starts are as the graph has them.
-/
structure Movable (L : Scalars) (C : Callees) (params : Params) (base : Base) (outer : Option Row)
    (input : LogicalPlan) (columns : List ProjectionItem) (distinct : Bool) (keys : List OrderKey)
    (skip limit : RowCount) (rows : List Row) : Prop where
  replaced : (distinct&&isWindowed skip limit)=false →
    onlyReplacedAll (renamed columns) (keys.map OrderKey.expression)=true
  named : (distinct&&isWindowed skip limit)=true →
    readsAll (keys.map OrderKey.expression) ⊆ columns.map ProjectionItem.binding
  alike : distinct=true → isWindowed skip limit=false → ∀ a b, IsShown L params columns rows a →
    IsShown L params columns rows b → rowFingerprint L a.out=rowFingerprint L b.out →
    ∀ as, sortValues L params keys a = .ok as →
      ∃ bs, sortValues L params keys b = .ok bs ∧ compareKeys L keys as bs = .eq
  ordered : distinct=true ∨ isWindowed skip limit=true → ∀ a b c as bs cs, IsShown L params columns rows a →
    IsShown L params columns rows b → IsShown L params columns rows c → sortValues L params keys a = .ok as →
    sortValues L params keys b = .ok bs → sortValues L params keys c = .ok cs →
    compareKeys L keys as bs ≠ .gt → compareKeys L keys bs cs ≠ .gt → compareKeys L keys as cs ≠ .gt
  indexed : distinct=false → ∀ skip' limit', resolveRowCount params "SKIP" skip = .ok skip' →
    resolveRowCount params "LIMIT" limit = .ok limit' → limit'≠noLimit →
    IndexAgrees C base input (substituteKeys columns [] keys) (skip'+limit')
  fillable : keys=[] → ∀ skip' limit', resolveRowCount params "SKIP" skip = .ok skip' →
    resolveRowCount params "LIMIT" limit = .ok limit' → limit'≠noLimit →
    Fillable L C params base outer (skip'+limit') (if distinct then .project input columns true true else input)
  searched : distinct=true → ∀ i min max, endpointOf L C params base outer
      (if isWindowed skip limit then input else sortBelow columns keys skip limit input)=some i →
    endpointBounds params i.hop i.keys columns = .ok (some (min,max)) →
    i.keys=(if isWindowed skip limit then [] else substituteKeys columns [] keys) ∧ i.hop.direction ≠ .both ∧
      i.hop.relAlias≠some i.hop.targetAlias ∧ (min=0 → ∀ seeds, i.seeds = .ok seeds →
        ∀ n ∈ starts i.hop seeds, lookupNodeById base.graph n.id=some n)

theorem evaluateAll_substituteKeys (hout : projectRow L params columns true s.row = .ok s.out)
    (hreplaced : onlyReplacedAll (renamed columns) (keys.map OrderKey.expression)=true) :
    evaluateAll L params ((substituteKeys columns [] keys).map OrderKey.expression) s.row.get =
      sortValues L params keys s := by
  rw [expression_substituteKeys,sortValues]
  exact evaluateAll_substitute (overlaid_env hout) _ hreplaced

theorem evaluateAll_named (hout : projectRow L params columns true s.row = .ok s.out)
    (hnamed : readsAll (keys.map OrderKey.expression) ⊆ columns.map ProjectionItem.binding) :
    evaluateAll L params (keys.map OrderKey.expression) s.out.get=sortValues L params keys s :=
  evaluateAll_congr L params _ fun _ hname => (env_column hout (hnamed hname)).symm

theorem orderOf_substituteKeys :
    byKeys L (substituteKeys columns keep keys) (valuesOf L params keys)=orderOf L params keys :=
  funext₂ fun _ _ => compareKeys_congr (descending_substituteKeys keep) _ _

theorem mergeSort_orderOf_nil (ss : List Shown) : ss.mergeSort (leOf (orderOf L params []))=ss :=
  mergeSort_of_pairwise (pairwise_of_forall fun _ _ => rfl)

theorem endpointOf_sortBelow (hwindow : isWindowed skip limit=false)
    (hi : endpointOf L C params base outer (sortBelow columns keys skip limit input)=some i)
    (hkeys : i.keys=substituteKeys columns [] keys) :
    ∃ below, i.seeds=execute L C params base below outer none ∧ input = .expand below i.hop := by
  obtain ⟨below,hseeds,⟨hnil,hplan⟩ | ⟨hne,hplan⟩⟩ := endpointOf_some hi
  · obtain rfl : keys=[] := by simpa [hkeys,substituteKeys] using hnil
    exact ⟨below,hseeds,by simpa [sortBelow,hwindow] using hplan⟩
  · have hsome : keys≠[] := by
      rintro rfl
      exact hne hkeys
    rw [sortBelow,if_pos (by simp [hsome])] at hplan
    exact ⟨below,hseeds,(LogicalPlan.topN.inj hplan).1⟩

theorem isWindowed_of_limit (hlimit : resolveRowCount params "LIMIT" limit = .ok limit') (h : limit'≠noLimit) :
    isWindowed skip limit=true := by
  by_contra hwindow
  obtain ⟨-,rfl⟩ := isWindowed_eq_false (by simpa using hwindow)
  cases hlimit
  exact h rfl

theorem Movable.transOn (hmovable : Movable L C params base outer input columns distinct keys skip limit rows)
    (hshows : Shows L params columns distinct keys rows shown kept) (h : distinct=true ∨ isWindowed skip limit=true)
    (hss : ∀ s ∈ ss, s∈shown) (hvalues : ∀ s ∈ ss, sortValues L params keys s = .ok (valuesOf L params keys s)) :
    TransOn (orderOf L params keys) ss :=
  fun a ha b hb c hc => hmovable.ordered h a b c _ _ _ (hshows.isShown (hss a ha)) (hshows.isShown (hss b hb))
    (hshows.isShown (hss c hc)) (hvalues a ha) (hvalues b hb) (hvalues c hc)

variable (horder : L.orderForSort=orderForSort)
  (hskip : resolveRowCount params "SKIP" skip = .ok skip') (hlimit : resolveRowCount params "LIMIT" limit = .ok limit')
  (hrows : execute L C params base input outer none = .ok rows)

include horder hskip hlimit hrows

theorem execute_sortBelow (hinput : shown.map Shown.row=rows)
    (hout : ∀ s ∈ shown, projectRow L params columns true s.row = .ok s.out)
    (hvalues : ∀ s ∈ shown, sortValues L params keys s = .ok (valuesOf L params keys s))
    (hreplaced : onlyReplacedAll (renamed columns) (keys.map OrderKey.expression)=true)
    (htrans : limit'≠noLimit → TransOn (orderOf L params keys) shown)
    (hagrees : limit'≠noLimit → IndexAgrees C base input (substituteKeys columns [] keys) (skip'+limit'))
    (hfill : keys=[] → limit'≠noLimit → Fillable L C params base outer (skip'+limit') input) :
    execute L C params base (sortBelow columns keys skip limit input) outer none =
      .ok ((rowWindow skip' limit' (shown.mergeSort (leOf (orderOf L params keys)))).map Shown.row) := by
  unfold sortBelow
  split
  · by_cases hkeys : keys=[]
    · subst hkeys
      rw [mergeSort_orderOf_nil,← rowWindow_map,hinput]
      exact execute_topN_nil hskip hlimit hrows (hfill rfl) none
    · have hkeys' : substituteKeys columns [] keys≠[] := by simp [substituteKeys,hkeys]
      have hvalues' : ∀ s ∈ shown, evaluateAll L params ((substituteKeys columns [] keys).map OrderKey.expression)
          s.row.get = .ok (valuesOf L params keys s) := fun s hs =>
        (evaluateAll_substituteKeys (hout s hs) hreplaced).trans (hvalues s hs)
      have hsorted := sortRows_map hvalues'
      rw [hinput,orderOf_substituteKeys] at hsorted
      rw [← rowWindow_map]
      refine execute_topN horder hkeys' hskip hlimit hrows hsorted (fun hne => ⟨?_,hagrees hne⟩) none
      rw [← hinput]
      refine consistent_map hvalues' ?_
      rw [orderOf_substituteKeys]
      exact htrans hne
  · rename_i hplain
    simp only [Bool.or_eq_true,Bool.not_eq_true',not_or,Bool.not_eq_false,List.isEmpty_iff,Bool.not_eq_true]
      at hplain
    obtain ⟨rfl,hwindow⟩ := hplain
    obtain ⟨rfl,rfl⟩ := isWindowed_eq_false hwindow
    cases hskip
    cases hlimit
    rw [mergeSort_orderOf_nil,rowWindow,if_pos rfl,drop_zero,hinput]
    exact hrows

section
variable (hmovable : Movable L C params base outer input columns true keys skip limit rows)
  (hshows : Shows L params columns true keys rows shown kept)
include hmovable hshows

/-- Below a window duplicates go first, then the rows are sorted by the names. -/
theorem execute_sortAbove (hwindow : isWindowed skip limit=true) :
    execute L C params base (.topN (.project input columns true true) keys skip limit) outer none =
      .ok ((rowWindow skip' limit' (kept.mergeSort (leOf (orderOf L params keys)))).map Shown.out) := by
  have hshown : execute L C params base input outer none = .ok (shown.map Shown.row) := by rw [hshows.input,hrows]
  have hkept : kept=firstShown L shown := hshows.chosen
  have hmem : ∀ s ∈ kept, s∈shown := fun s hs => (firsts_sublist [] shown).subset (hkept ▸ hs)
  have hdistinct : execute L C params base (.project input columns true true) outer none =
      .ok (kept.map Shown.out) := by
    rw [hkept]
    refine execute_distinctRows hshown hshows.out fun i min max hi hbounds => ?_
    obtain ⟨hkeys,hdirected,hrel,hstored⟩ := hmovable.searched rfl i min max (by rw [if_pos hwindow]; exact hi) hbounds
    rw [if_pos hwindow] at hkeys
    obtain ⟨below,hseeds,⟨-,rfl⟩ | ⟨hne,-⟩⟩ := endpointOf_some hi
    · have hfound := execute_searched (fun _ => []) (swaps_of_eq horder) hi hseeds hshown hbounds hdirected hrel
        hstored hshows.out (by rw [hkeys]; exact fun _ _ => rfl) (by rw [hkeys]; exact fun _ _ _ _ _ _ _ h => h)
        (by rw [hkeys]; exact fun _ _ _ _ _ => rfl)
      rw [hfound,hkeys]
      exact congrArg (fun ss => ok (ss.map Shown.out)) (mergeSort_of_pairwise (pairwise_of_forall fun _ _ => rfl))
    · exact absurd hkeys hne
  rw [← rowWindow_map]
  by_cases hkeys : keys=[]
  · subst hkeys
    rw [mergeSort_orderOf_nil]
    exact execute_topN_nil hskip hlimit hdistinct (hmovable.fillable rfl skip' limit' hskip hlimit) none
  · have hvalues : ∀ s ∈ kept, evaluateAll L params (keys.map OrderKey.expression) s.out.get =
        .ok (valuesOf L params keys s) := fun s hs =>
      (evaluateAll_named (hshows.out s (hmem s hs)) (hmovable.named hwindow)).trans (hshows.values s hs)
    refine execute_topN horder hkeys hskip hlimit hdistinct (sortRows_map hvalues) (fun _ => ⟨?_,nofun⟩) none
    exact consistent_map hvalues (hmovable.transOn hshows (.inl rfl) hmem hshows.values)

/-- Without a window the sort commutes with the choice of the first rows, since it does not tell duplicates apart. -/
theorem execute_sortedDistinct (hwindow : isWindowed skip limit=false) :
    execute L C params base (.project (sortBelow columns keys skip limit input) columns true true) outer none =
      .ok ((rowWindow skip' limit' (kept.mergeSort (leOf (orderOf L params keys)))).map Shown.out) := by
  have hshown : execute L C params base input outer none = .ok (shown.map Shown.row) := by rw [hshows.input,hrows]
  have hswap := swaps_of_eq horder
  have hreplaced := hmovable.replaced hwindow
  have hopen : ¬ limit'≠noLimit := fun hne => absurd (isWindowed_of_limit hlimit hne) (by rw [hwindow]; decide)
  have hkept : kept=firstShown L shown := hshows.chosen
  have halike : ∀ a ∈ shown, ∀ b ∈ shown, rowFingerprint L a.out=rowFingerprint L b.out →
      ∀ as, sortValues L params keys a = .ok as →
        ∃ bs, sortValues L params keys b = .ok bs ∧ compareKeys L keys as bs = .eq := fun a ha b hb =>
    hmovable.alike rfl hwindow a b (hshows.isShown ha) (hshows.isShown hb)
  have hvalues : ∀ s ∈ shown, sortValues L params keys s = .ok (valuesOf L params keys s) := by
    intro s hs
    obtain ⟨s',hs',hfp⟩ : ∃ s' ∈ firstShown L shown, rowFingerprint L s'.out=rowFingerprint L s.out :=
      exists_mem_firsts hs not_mem_nil
    rw [← hkept] at hs'
    have hmem : s'∈shown := (firsts_sublist [] shown).subset (hkept ▸ hs')
    obtain ⟨bs,hbs,-⟩ := halike s' hmem s hs hfp _ (hshows.values s' hs')
    rw [hbs,valuesOf_eq hbs]
  have hequal : ∀ a ∈ shown, ∀ b ∈ shown, rowFingerprint L a.out=rowFingerprint L b.out →
      orderOf L params keys a b = .eq := by
    intro a ha b hb hfp
    obtain ⟨bs,hbs,heq⟩ := halike a ha b hb hfp _ (hvalues a ha)
    rw [orderOf,byKeys,valuesOf_eq hbs,heq]
  have htrans := hmovable.transOn hshows (.inl rfl) (fun _ hs => hs) hvalues
  have hbelow := execute_sortBelow horder hskip hlimit hrows hshows.input hshows.out hvalues hreplaced
    (fun _ => htrans) (fun hne => absurd hne hopen) fun _ hne => absurd hne hopen
  have hcommute : firstShown L (shown.mergeSort (leOf (orderOf L params keys))) =
      kept.mergeSort (leOf (orderOf L params keys)) := by
    rw [hkept]
    exact firsts_mergeSort_of_mem (fun a b => compareKeys_swap hswap keys _ _) htrans hequal
  obtain ⟨hskip',hlimit'⟩ := isWindowed_eq_false hwindow
  have hall : ∀ l : List Shown, rowWindow skip' limit' l=l := by
    intro l
    rw [hskip'] at hskip
    cases hskip
    rw [rowWindow,if_pos (not_not.mp hopen),drop_zero]
  rw [hall] at hbelow
  rw [hall,← hcommute]
  refine execute_distinctRows hbelow (fun s hs => hshows.out s (mem_mergeSort.mp hs)) fun i min max hi hbounds => ?_
  have hnot : ¬ isWindowed skip limit=true := by rw [hwindow]; decide
  obtain ⟨hkeys,hdirected,hrel,hstored⟩ := hmovable.searched rfl i min max (by rw [if_neg hnot]; exact hi) hbounds
  rw [if_neg hnot] at hkeys
  obtain ⟨below,hseeds,rfl⟩ := endpointOf_sortBelow hwindow hi hkeys
  have hsame : byKeys L i.keys (valuesOf L params keys)=orderOf L params keys := by rw [hkeys,orderOf_substituteKeys]
  have hfound := execute_searched (valuesOf L params keys) hswap hi hseeds hshown hbounds hdirected hrel hstored
    hshows.out
    (by rw [hkeys]; exact fun s hs => (evaluateAll_substituteKeys (hshows.out s hs) hreplaced).trans (hvalues s hs))
    (hsame ▸ htrans) (hsame ▸ hequal)
  rwa [hsame,← hkept,← hcommute] at hfound

end

theorem execute_projectionPlan (hmovable : Movable L C params base outer input columns distinct keys skip limit rows)
    (hshows : Shows L params columns distinct keys rows shown kept) :
    execute L C params base (projectionPlan columns distinct keys skip limit input) outer none =
      .ok ((rowWindow skip' limit' (kept.mergeSort (leOf (orderOf L params keys)))).map Shown.out) := by
  unfold projectionPlan
  split
  · rename_i hlayout
    obtain ⟨rfl,hwindow⟩ := Bool.and_eq_true_iff.mp hlayout
    rw [substituteKeys_all]
    exact execute_sortAbove horder hskip hlimit hrows hmovable hshows hwindow
  · rename_i hlayout
    rw [Bool.not_eq_true] at hlayout
    cases distinct with
    | true => exact execute_sortedDistinct horder hskip hlimit hrows hmovable hshows hlayout
    | false =>
      obtain rfl : kept=shown := hshows.chosen
      have hbelow := execute_sortBelow horder hskip hlimit hrows hshows.input hshows.out hshows.values
        (hmovable.replaced hlayout)
        (fun hne => hmovable.transOn hshows (.inr (isWindowed_of_limit hlimit hne)) (fun _ hs => hs) hshows.values)
        (hmovable.indexed rfl skip' limit' hskip hlimit) fun hkeys => hmovable.fillable hkeys skip' limit' hskip hlimit
      rw [execute_project,hbelow]
      exact projectRows_shown fun s hs => hshows.out s (mem_mergeSort.mp (mem_of_mem_rowWindow hs))

end

/-- The plan of a clause returns the rows that the clause says: projected, without duplicates if DISTINCT, sorted by
keys in which the columns come before the variables of the input, and cut to the window. -/
theorem lowerProjection_rows (L : Scalars) (C : Callees) (params : Params) (base : Base) (text : Expression → String)
    (items : List AstProjectionItem) (distinct : Bool) (keys : List OrderKey) (skip limit : Option Expression)
    (input : LogicalPlan) (ctx : LowerCtx) (outer : Option Row) (columns : List ProjectionItem)
    (counts : RowCount × RowCount) (rows out : List Row) (hcolumns : projectionItems text items ctx = .ok columns)
    (hcounts : rowCounts skip limit = .ok counts)
    (hrows : execute L.sorting C params base input outer none = .ok rows)
    (hmovable : Movable L.sorting C params base outer input columns distinct keys counts.1 counts.2 rows)
    (hclause : clauseRows L.sorting params columns distinct keys counts.1 counts.2 rows = .ok out) :
    ∃ plan ctx', lowerProjection text items distinct keys skip limit input ctx = .ok (plan, ctx') ∧
      execute L.sorting C params base plan outer none = .ok out := by
  obtain ⟨skip',limit',shown,kept,hskip,hlimit,hshows,rfl⟩ := clauseRows_ok hclause
  refine ⟨projectionPlan columns distinct keys counts.1 counts.2 input,
    { ctx with bindings := columns.map ProjectionItem.binding },?_,?_⟩
  · exact bind_eq_ok.mpr ⟨columns,hcolumns,bind_eq_ok.mpr ⟨counts,hcounts,rfl⟩⟩
  · exact execute_projectionPlan rfl hskip hlimit hrows hmovable hshows

theorem mergeSort_pair (h : le a b=true) : [a,b].mergeSort le=[a,b] :=
  mergeSort_of_pairwise (by simp [h])

def unwindInts (values : List Int) : LogicalPlan :=
  .unwind .empty (.list (values.map fun n => .literal (.integer n))) "a"

def intRow (name : String) (n : Int) : Row := Row.new.set name (.integer n)

/-- `UNWIND [1, 2] AS a RETURN a AS b ORDER BY b LIMIT 1`. -/
theorem lowerProjection_rows_alias :
    ∃ plan ctx', lowerProjection (fun _ => "") [⟨.var "a", some "b"⟩] false [⟨.var "b", false⟩] none
        (some (.literal (.integer 1))) (unwindInts [1, 2]) {} = .ok (plan, ctx') ∧
      execute Scalars.bare.sorting Callees.none (fun _ => none) circle plan none none = .ok [intRow "b" 1] := by
  have hshown : ∀ s, IsShown Scalars.bare.sorting (fun _ => none) [⟨.var "a", "b"⟩] [intRow "a" 1,intRow "a" 2] s →
      ∀ as, sortValues Scalars.bare.sorting (fun _ => none) [⟨.var "b",false⟩] s = .ok as → OfKinds as [.integers] := by
    rintro ⟨row,out⟩ ⟨hrow,hout⟩ as has
    simp only [mem_cons,not_mem_nil,or_false] at hrow
    rcases hrow with rfl | rfl
    · obtain rfl : intRow "b" 1=out := ok.inj hout
      cases has
      exact .cons rfl .nil
    · obtain rfl : intRow "b" 2=out := ok.inj hout
      cases has
      exact .cons rfl .nil
  refine lowerProjection_rows Scalars.bare Callees.none (fun _ => none) circle (fun _ => "") _ false _ _ _ _ _ none
    [⟨.var "a", "b"⟩] (.const 0,.const 1) [intRow "a" 1,intRow "a" 2] [intRow "b" 1] rfl rfl rfl
    ⟨fun _ => rfl,nofun,nofun,?_,nofun,nofun,nofun⟩ ?_
  · intro _ a b c as bs cs ha hb hc hkeyA hkeyB hkeyC
    exact compareKeys_trans (hshown a ha as hkeyA) (hshown b hb bs hkeyB) (hshown c hc cs hkeyC)
  · change ok (rowWindow 0 1 ((mergeSort [_,_] _).map _)) = _
    rw [mergeSort_pair (by decide)]
    rfl

/-- `[0, 2, 1][a] AS a`. -/
def indexed : ProjectionItem :=
  ⟨.index (.list [.literal (.integer 0),.literal (.integer 2),.literal (.integer 1)]) (.var "a"), "a"⟩

/-- `UNWIND [2, 1] AS a RETURN [0, 2, 1][a] AS a ORDER BY CASE WHEN true THEN a END LIMIT 1`: inside CASE the key
reads the variable of the input. -/
theorem lowerProjection_case_key :
    let items : List AstProjectionItem := [⟨indexed.expression,some "a"⟩]
    let keys : List OrderKey := [⟨.case none [(.literal (.boolean true),.var "a")] none,false⟩]
    let one : Expression := .literal (.integer 1)
    projectionItems (fun _ => "") items {} = .ok [indexed] ∧
    rowCounts none (some one) = .ok (.const 0,.const 1) ∧
    execute Scalars.bare.sorting Callees.none (fun _ => none) circle (unwindInts [2,1]) none none =
      .ok [intRow "a" 2,intRow "a" 1] ∧
    clauseRows Scalars.bare.sorting (fun _ => none) [indexed] false keys (.const 0) (.const 1)
      [intRow "a" 2,intRow "a" 1] = .ok [intRow "a" 1] ∧
    ∃ plan ctx', lowerProjection (fun _ => "") items false keys none (some one) (unwindInts [2,1]) {} =
        .ok (plan,ctx') ∧
      execute Scalars.bare.sorting Callees.none (fun _ => none) circle plan none none = .ok [intRow "a" 2] := by
  intro items keys one
  have htop : topRows Scalars.bare.sorting (fun _ => none) keys 0 1 [intRow "a" 2,intRow "a" 1] =
      .ok [intRow "a" 1] := by
    change boundedTopk Scalars.bare.sorting (fun _ => none) keys 1 [intRow "a" 2,intRow "a" 1] = _
    change ok ((([(([RuntimeValue.integer 1],intRow "a" 1),1)].mergeSort _).map Prod.fst).map Prod.snd) = _
    rw [mergeSort_singleton]
    rfl
  have hrun : execute Scalars.bare.sorting Callees.none (fun _ => none) circle
      (projectionPlan [indexed] false keys (.const 0) (.const 1) (unwindInts [2,1])) none none =
        .ok [intRow "a" 2] := by
    change execute _ _ _ _ (.project (.topN (unwindInts [2,1]) keys (.const 0) (.const 1)) [indexed] false true) _ _ = _
    exact bind_eq_ok.mpr ⟨[intRow "a" 1],bind_eq_ok.mpr ⟨0,rfl,bind_eq_ok.mpr ⟨1,rfl,bind_eq_ok.mpr ⟨_,rfl,
      bind_eq_ok.mpr ⟨_,htop,rfl⟩⟩⟩⟩,rfl⟩
  refine ⟨rfl,rfl,rfl,?_,_,_,rfl,hrun⟩
  change ok (rowWindow 0 1 ((mergeSort [_,_] _).map _)) = _
  rw [mergeSort_pair (by decide)]
  rfl

end NamiDB.Cypher
