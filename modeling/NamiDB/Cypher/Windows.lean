import NamiDB.Cypher.Capped

/-! Windows of the rows in order. Neither the heap that keeps no more rows than the window needs nor an index that
has them in order changes what the sort of all rows says. -/
namespace NamiDB.Cypher
open Query Storage Lib List Except

section

variable {L : Scalars} {params : Params} {keys keys' : List OrderKey} {skip limit : Nat}

theorem rowWindow_map (f : α → β) (skip limit : Nat) (l : List α) :
    rowWindow skip limit (l.map f)=(rowWindow skip limit l).map f := by
  unfold rowWindow
  split
  · rw [map_drop]
  · rw [map_take,map_drop]

theorem mem_of_mem_rowWindow (h : a∈rowWindow skip limit l) : a∈l := by
  unfold rowWindow at h
  split at h
  · exact mem_of_mem_drop h
  · exact mem_of_mem_drop (mem_of_mem_take h)

theorem rowWindow_take (h : limit≠noLimit) (l : List α) :
    rowWindow skip limit (l.take (skip+limit))=rowWindow skip limit l := by
  rw [rowWindow,rowWindow,if_neg h,if_neg h,drop_take,Nat.add_sub_cancel_left,take_take,Nat.min_self]

theorem rowWindow_fills (h : limit≠noLimit) {part whole : List α}
    (hfills : Fills (skip+limit) part whole) : rowWindow skip limit part=rowWindow skip limit whole := by
  rcases hfills.eq_or_le with rfl | hle
  · rfl
  · obtain ⟨rest,rfl⟩ := hfills.1
    rw [← rowWindow_take h part,← rowWindow_take h (part++rest),take_append_of_le_length hle]

abbrev byKeys {σ : Type} (L : Scalars) (keys : List OrderKey) (values : σ → List RuntimeValue) (a b : σ) : Ordering :=
  compareKeys L keys (values a) (values b)

section

variable {σ : Type} {ss : List σ} {g : σ → Row} {values : σ → List RuntimeValue}
  (hvalues : ∀ s ∈ ss, evaluateAll L params (keys'.map OrderKey.expression) (g s).get = .ok (values s))

include hvalues

theorem keyedRow_eq (hs : s∈ss) : keyedRow L params keys' (g s) = .ok (values s,g s) := by
  rw [keyedRow,hvalues s hs]
  rfl

theorem sortRows_map : sortRows L params keys' (ss.map g) =
    .ok ((ss.mergeSort (leOf (byKeys L keys' values))).map g) := by
  have hkeyed : gather (fun row => do
      let b ← keyedRow L params keys' row
      pure [b]) (ss.map g) = .ok (ss.map fun s => (values s,g s)) := by
    rw [gather_one_eq_ok,forall₂_map_left_iff,forall₂_map_right_iff,forall₂_same]
    exact fun s hs => keyedRow_eq hvalues hs
  have hsort : (ss.mergeSort (leOf (byKeys L keys' values))).map
      (fun s => (values s,g s))=(ss.map fun s => (values s,g s)).mergeSort
        fun a b => compareKeys L keys' a.1 b.1 != .gt := map_mergeSort fun _ _ _ _ => rfl
  rw [sortRows,hkeyed]
  change ok (map Prod.snd _) = _
  rw [← hsort,map_map]
  rfl

theorem consistent_map (htrans : TransOn (byKeys L keys' values) ss) : Consistent L params keys' (·∈ss.map g) := by
  intro a b c as bs cs ha hb hc hkeyA hkeyB hkeyC
  obtain ⟨a,ha',rfl⟩ := mem_map.mp ha
  obtain ⟨b,hb',rfl⟩ := mem_map.mp hb
  obtain ⟨c,hc',rfl⟩ := mem_map.mp hc
  cases (keyedRow_eq hvalues ha').symm.trans hkeyA
  cases (keyedRow_eq hvalues hb').symm.trans hkeyB
  cases (keyedRow_eq hvalues hc').symm.trans hkeyC
  exact htrans a ha' b hb' c hc'

theorem trans_of_consistent (h : Consistent L params keys' (·∈ss.map g)) : TransOn (byKeys L keys' values) ss :=
  fun a ha b hb c hc => h (g a) (g b) (g c) _ _ _ (mem_map_of_mem ha) (mem_map_of_mem hb) (mem_map_of_mem hc)
    (keyedRow_eq hvalues ha) (keyedRow_eq hvalues hb) (keyedRow_eq hvalues hc)

end
end

section

variable {L : Scalars} {C : Callees} {params : Params} {base : Base} {outer : Option Row} {input : LogicalPlan}
  {keys : List OrderKey} {skip limit : Nat} {label binding property : String} {rows whole : List Row}

def storedValue (property : String) (n : NodeValue) : RuntimeValue :=
  ((n.properties.lookup property).map RuntimeValue.ofCore).getD .null

def orderByProperty (property : String) (a b : NodeValue) : Ordering :=
  orderForSort false (storedValue property a) (storedValue property b)

abbrev byText (property : String) (a b : NodeValue) : Ordering :=
  compare ((indexedText property a).getD "") ((indexedText property b).getD "")

def nodesOf (base : Base) (label : String) : List NodeValue := scanNodeViews base.graph (some label) [] none

def withText (property : String) (nodes : List NodeValue) : List NodeValue :=
  nodes.filter fun n => (indexedText property n).isSome

/-- Where a String index has as many nodes as a window needs, these are the first ones in order: the first nodes hold
texts, and what the scan returns of a node is all of it. -/
def IndexAgrees (C : Callees) (base : Base) (input : LogicalPlan) (keys : List OrderKey) (bound : Nat) : Prop :=
  ∀ label binding projection property, input = .nodeScan (some label) binding [] projection →
    keys=[⟨.property (.var binding) property,false⟩] → C.stringIndexed label property=true →
    bound≤(withText property (nodesOf base label)).length → property ≠ "_id" ∧ projection=none ∧
      ∀ n ∈ ((nodesOf base label).mergeSort (leOf (orderByProperty property))).take bound,
        (indexedText property n).isSome=true

theorem storedValue_of_text (h : indexedText property n=some s) : storedValue property n = .string s := by
  unfold indexedText at h
  split at h
  · rename_i t ht
    cases h
    rw [storedValue,ht]
    rfl
  · cases h

theorem orderByProperty_texts (ha : (indexedText property a).isSome=true)
    (hb : (indexedText property b).isSome=true) : orderByProperty property a b=byText property a b := by
  obtain ⟨s,hs⟩ := Option.isSome_iff_exists.mp ha
  obtain ⟨t,ht⟩ := Option.isSome_iff_exists.mp hb
  rw [orderByProperty,storedValue_of_text hs,storedValue_of_text ht,byText,hs,ht]
  rfl

theorem orderByProperty_swap (property : String) (a b : NodeValue) :
    orderByProperty property b a=(orderByProperty property a b).swap := orderForSort_swap false _ _

theorem byKeys_property (horder : L.orderForSort=orderForSort) (e : Expression) :
    byKeys L [⟨e,false⟩] (fun n => [storedValue property n])=orderByProperty property := by
  funext a b
  rw [byKeys,compareKeys,horder]
  exact Ordering.then_eq

theorem mergeSort_texts {nodes : List NodeValue} (h : ∀ n ∈ nodes, (indexedText property n).isSome=true) :
    nodes.mergeSort (leOf (byText property))=nodes.mergeSort (leOf (orderByProperty property)) := by
  refine (map_id _).symm.trans ((map_mergeSort (f := id) fun a ha b hb => ?_).trans
    (congrArg (mergeSort · _) (map_id _)))
  rw [leOf,leOf,id,id,orderByProperty_texts (h a ha) (h b hb)]

/-- The nodes that an index gives are the first ones of the sorted scan. -/
theorem take_withText {nodes : List NodeValue} {bound : Nat} (htrans : TransOn (orderByProperty property) nodes)
    (hfirst : ∀ n ∈ (nodes.mergeSort (leOf (orderByProperty property))).take bound,
      (indexedText property n).isSome=true) :
    ((withText property nodes).mergeSort (leOf (byText property))).take bound =
      (nodes.mergeSort (leOf (orderByProperty property))).take bound := by
  have htexts : ∀ n ∈ withText property nodes, (indexedText property n).isSome=true := fun n hn => (mem_filter.mp hn).2
  rw [mergeSort_texts htexts,withText,← filter_mergeSort_of_mem (orderByProperty_swap property) htrans]
  generalize nodes.mergeSort (leOf (orderByProperty property))=sorted at hfirst
  conv_lhs => rw [← take_append_drop bound sorted,filter_append,filter_eq_self.mpr hfirst]
  rcases Nat.lt_or_ge sorted.length bound with hshort | hlong
  · rw [drop_of_length_le (by omega),filter_nil,append_nil,take_take,Nat.min_self]
  · rw [take_append_of_le_length (by rw [length_take]; omega),take_take,Nat.min_self]

theorem orderedNodes_some (h : orderedNodesByStringProperty C base label property bound=some nodes) :
    (bound=0 ∧ nodes=[]) ∨ C.stringIndexed label property=true ∧
      bound≤(withText property (nodesOf base label)).length ∧
      nodes=((withText property (nodesOf base label)).mergeSort (leOf (byText property))).take bound := by
  unfold orderedNodesByStringProperty at h
  split at h
  · rename_i hzero
    exact .inl ⟨hzero,(Option.some.inj h).symm⟩
  · split at h
    · rename_i hstring
      dsimp only at h
      split at h
      · cases h
      · rename_i hmany
        exact .inr ⟨hstring,Nat.not_lt.mp hmany,(Option.some.inj h).symm⟩
    · cases h

theorem indexedRows_some (h : indexedRows C base input keys skip limit=some part) : limit≠noLimit ∧
    ∃ label binding projection property, input = .nodeScan (some label) binding [] projection ∧
      keys=[⟨.property (.var binding) property,false⟩] ∧
      (orderedNodesByStringProperty C base label property (skip+limit)).map (bindNodes binding Row.new)=some part := by
  unfold indexedRows at h
  split at h
  · rename_i hcut
    rw [Bool.and_eq_true,bne_iff_ne] at hcut
    refine ⟨hcut.2,?_⟩
    unfold tryIndexedOrderedNodePrefix at h
    split at h
    · split at h
      · rename_i heq
        subst heq
        exact ⟨_,_,_,_,rfl,rfl,h⟩
      · cases h
    · cases h
  · cases h

theorem evaluateAll_property (hid : property ≠ "_id") (n : NodeValue) :
    evaluateAll L params ([⟨.property (.var binding) property,false⟩].map OrderKey.expression)
      (Row.new.set binding (.node n)).get = .ok [storedValue property n] := by
  simp [evaluateAll,evaluate,Scalars.propertyAccess,hid,storedValue,bind,Except.bind,pure,Except.pure]

theorem topRows_indexed (horder : L.orderForSort=orderForSort) (hagrees : IndexAgrees C base input keys (skip+limit))
    (hconsistent : Consistent L params keys (·∈rows)) (hindexed : indexedRows C base input keys skip limit=some part)
    (hrows : execute L C params base input outer none = .ok rows) (hsorted : sortRows L params keys rows = .ok whole) :
    ∃ sorted, topRows L params keys skip limit part = .ok sorted ∧
      rowWindow skip limit sorted=rowWindow skip limit whole := by
  obtain ⟨hlimit,label,binding,projection,property,rfl,rfl,hnodes⟩ := indexedRows_some hindexed
  obtain ⟨nodes,hnodes',rfl⟩ := Option.map_eq_some_iff.mp hnodes
  rcases orderedNodes_some hnodes' with ⟨hzero,rfl⟩ | ⟨hstring,hmany,rfl⟩
  · refine ⟨[],by simp [topRows,orderRows,sortRows,gather,bindNodes,bind,Except.bind,pure,Except.pure],?_⟩
    obtain rfl : limit=0 := by omega
    rw [rowWindow,rowWindow,if_neg hlimit,if_neg hlimit,take_zero,take_zero]
  · obtain ⟨hid,rfl,hfirst⟩ := hagrees label binding _ property rfl rfl hstring hmany
    cases hrows
    have hvalues : ∀ ns : List NodeValue, ∀ n ∈ ns, evaluateAll L params
        ([⟨.property (.var binding) property,false⟩].map OrderKey.expression) (Row.new.set binding (.node n)).get =
          .ok [storedValue property n] := fun _ n _ => evaluateAll_property hid n
    have htrans := trans_of_consistent (hvalues (nodesOf base label)) hconsistent
    have hsort : ∀ ns : List NodeValue, sortRows L params [⟨.property (.var binding) property,false⟩]
        (bindNodes binding Row.new ns) =
          .ok (bindNodes binding Row.new (ns.mergeSort (leOf (orderByProperty property)))) := by
      intro ns
      have hns := sortRows_map (hvalues ns)
      rwa [byKeys_property horder] at hns
    rw [byKeys_property horder] at htrans
    cases (hsort (nodesOf base label)).symm.trans hsorted
    rw [take_withText htrans hfirst]
    have hordered := pairwise_mergeSort_of_mem (orderByProperty_swap property) htrans
    generalize (nodesOf base label).mergeSort (leOf (orderByProperty property))=all at hordered
    -- the nodes of the index are in order already
    have hordered : (all.take (skip+limit)).mergeSort (leOf (orderByProperty property))=all.take (skip+limit) :=
      mergeSort_of_pairwise (hordered.sublist (take_sublist _ _))
    refine ⟨bindNodes binding Row.new (all.take (skip+limit)),?_,?_⟩
    · rw [topRows,if_neg]
      · rw [orderRows,if_neg (by simp),hsort,hordered]
      · simp [bindNodes]
    · rw [bindNodes,bindNodes,map_take,rowWindow_take hlimit]

/-- A window of a sort, however it is computed. -/
theorem execute_topN (horder : L.orderForSort=orderForSort) (hkeys : keys≠[])
    (hskip : resolveRowCount params "SKIP" skip' = .ok skip)
    (hlimit : resolveRowCount params "LIMIT" limit' = .ok limit)
    (hrows : execute L C params base input outer none = .ok rows) (hsorted : sortRows L params keys rows = .ok whole)
    (hcut : limit≠noLimit → Consistent L params keys (·∈rows) ∧ IndexAgrees C base input keys (skip+limit))
    (cap : Option Nat) :
    execute L C params base (.topN input keys skip' limit') outer cap = .ok (rowWindow skip limit whole) := by
  obtain ⟨part,sorted,hpart,htop,hwindow⟩ : ∃ part sorted, (indexedRows C base input keys skip limit).elim
      (execute L C params base input outer (rowBudget keys skip limit)) .ok = .ok part ∧
      topRows L params keys skip limit part = .ok sorted ∧ rowWindow skip limit sorted=rowWindow skip limit whole := by
    cases hindexed : indexedRows C base input keys skip limit with
    | some part =>
      obtain ⟨hconsistent,hagrees⟩ := hcut (indexedRows_some hindexed).1
      obtain ⟨sorted,htop,hwindow⟩ := topRows_indexed horder hagrees hconsistent hindexed hrows hsorted
      exact ⟨part,sorted,rfl,htop,hwindow⟩
    | none =>
      have hbudget : rowBudget keys skip limit=none := by
        rw [rowBudget,if_neg]
        simp [hkeys]
      obtain ⟨sorted,htop,hwindow⟩ : ∃ sorted, topRows L params keys skip limit rows = .ok sorted ∧
          rowWindow skip limit sorted=rowWindow skip limit whole := by
        unfold topRows
        split
        · rename_i hbounded
          simp only [Bool.and_eq_true,decide_eq_true_eq] at hbounded
          have hlimit : limit≠noLimit := by omega
          refine ⟨_,?_,rowWindow_take hlimit whole⟩
          rw [boundedTopk_eq (swaps_of_eq horder) (sortRows_perm hsorted).2 (hcut hlimit).1,hsorted]
          rfl
        · exact ⟨whole,by rw [orderRows,if_neg (by simpa using hkeys),hsorted],rfl⟩
      exact ⟨rows,sorted,by rw [Option.elim_none,hbudget,hrows],htop,hwindow⟩
  refine bind_eq_ok.mpr ⟨skip,hskip,bind_eq_ok.mpr ⟨limit,hlimit,bind_eq_ok.mpr ⟨part,hpart,
    bind_eq_ok.mpr ⟨sorted,htop,?_⟩⟩⟩⟩
  rw [hwindow]
  rfl

/-- Without keys the window is taken from the rows that the input returns first. -/
theorem execute_topN_nil (hskip : resolveRowCount params "SKIP" skip' = .ok skip)
    (hlimit : resolveRowCount params "LIMIT" limit' = .ok limit)
    (hrows : execute L C params base input outer none = .ok rows)
    (hfill : limit≠noLimit → Fillable L C params base outer (skip+limit) input) (cap : Option Nat) :
    execute L C params base (.topN input [] skip' limit') outer cap = .ok (rowWindow skip limit rows) := by
  obtain ⟨part,hpart,hwindow⟩ : ∃ part, execute L C params base input outer (rowBudget [] skip limit) = .ok part ∧
      rowWindow skip limit part=rowWindow skip limit rows := by
    by_cases hlimit : limit=noLimit
    · rw [rowBudget,if_neg (by simpa using hlimit)]
      exact ⟨rows,hrows,rfl⟩
    · rw [rowBudget,if_pos (by simpa using hlimit)]
      obtain ⟨part,hpart,hfills⟩ := execute_fills input outer (skip+limit) rows (hfill hlimit) hrows
      exact ⟨part,hpart,rowWindow_fills hlimit hfills⟩
  refine bind_eq_ok.mpr ⟨skip,hskip,bind_eq_ok.mpr ⟨limit,hlimit,bind_eq_ok.mpr ⟨part,?_,
    bind_eq_ok.mpr ⟨part,rfl,?_⟩⟩⟩⟩
  · exact hpart
  · rw [hwindow]
    rfl

end
end NamiDB.Cypher
