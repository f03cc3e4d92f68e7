import NamiDB.Query.Checked

/-! Declared constraints over whole runs: each clause checks what it changes, so the constraints that hold of the
graph go on to hold. -/
namespace NamiDB.Query
open Storage Lib Checked List AList

variable {R : Rules} {w : Writer}

section

variable {u : Uniqueness} {id : NodeId} {labels : List String} {props : Properties} {exclude : Option NodeId}
variable {s : Schema}
variable {p label key : String} {changed : Option (List String)}

theorem admits_of_tuple (hp : ∀ p, p∈properties ↔ p∈u.properties) (hex : ∀ b, some b=exclude → b=id)
    (h : ∀ tuple, completeTuple properties props=some tuple → NoOther w exclude (u.label,tuple)) :
    u.Admits w.overlay.graph.nodes id labels props := by
  refine .of_scan fun hpresent => ?_
  obtain ⟨tuple,htuple⟩ := completeTuple_isSome fun p h => hpresent p ((hp p).mp h)
  refine ⟨tuple,fun e he => ?_,fun b hb => hex b (h tuple htuple b hb)⟩
  obtain ⟨hmem,hlookup⟩ := mem_completeTuple htuple he
  exact ⟨(hp _).mp hmem,hlookup⟩

theorem admits_of_value (hp : u.properties=[p]) (hex : ∀ b, some b=exclude → b=id)
    (h : ∀ v, props.lookup p=some v → NoOther w exclude (u.label,[(p,v)])) :
    u.Admits w.overlay.graph.nodes id labels props := by
  refine .of_scan fun hpresent => ?_
  obtain ⟨v,hv,-⟩ := hpresent p (by simp [hp])
  refine ⟨[(p,v)],fun e he => ?_,fun b hb => hex b (h v hv b hb)⟩
  rw [mem_singleton.mp he,hp]
  exact ⟨mem_singleton_self p,hv⟩

theorem mem_uniqueChecks (hl : label∈labels) (hd : s.label label=some d) (hu : d.isUnique p=true)
    (hv : props.lookup p=some v) : (label,[(p,v)])∈uniqueChecks s labels props := by
  obtain ⟨prop,hprop,hname⟩ := any_eq_true.mp hu
  simp only [Bool.and_eq_true,decide_eq_true_eq] at hname
  refine mem_flatMap.mpr ⟨label,hl,mem_filterMap.mpr ⟨prop,by simpa [hd] using hprop,?_⟩⟩
  rw [if_pos hname.2,hname.1,hv]
  rfl

theorem mem_compositeChecks (hc : c∈s.constraints) (hlen : 2≤c.properties.length) (hl : c.label∈labels)
    (hchanged : ∀ keys ∈ changed, ∃ p ∈ c.properties, p∈keys) (ht : completeTuple c.properties props=some tuple) :
    (c.label,tuple)∈compositeChecks s labels props changed := by
  refine mem_filterMap.mpr ⟨c,hc,?_⟩
  have hskip : changed.any (fun keys => c.properties.all fun p => decide (p∉keys))=false := by
    cases changed with
    | none => rfl
    | some keys =>
      obtain ⟨p,hp,hkeys⟩ := hchanged keys rfl
      simpa using ⟨p,hp,hkeys⟩
  have hguard : ¬(c.properties.length<2 ∨ c.label∉labels ∨
      changed.any (fun keys => c.properties.all fun p => decide (p∉keys))=true) := by
    rw [hskip]
    simp only [hl,not_true_eq_false,Bool.false_eq_true,or_false]
    omega
  rw [if_neg hguard,ht]
  rfl

theorem present_of_notNull (h : notNullViolation s labels props=none)
    (hl : label∈labels) (hr : s.Requires label key) : Present props key := by
  obtain ⟨d,hd,hreq⟩ := hr
  obtain ⟨prop,hprop,hname⟩ := any_eq_true.mp hreq
  simp only [Bool.and_eq_true,decide_eq_true_eq,Bool.not_eq_true'] at hname
  have hlabel := findSome?_eq_none_iff.mp h label hl
  rw [hd] at hlabel
  have hone := findSome?_eq_none_iff.mp hlabel prop hprop
  rw [hname.1,hname.2,if_neg Bool.false_ne_true] at hone
  cases hv : props.lookup key with
  | none =>
    rw [hv] at hone
    cases hone
  | some v =>
    rw [hv] at hone
    cases hnull : v.isNull with
    | true =>
      simp only [hnull] at hone
      cases hone
    | false => exact ⟨v,hv,hnull⟩

theorem not_requires_of_notNullLabel (h : notNullLabel s labels key=none)
    (hl : label∈labels) : ¬s.Requires label key := by
  rintro ⟨d,hd,hreq⟩
  have hlabel := find?_eq_none.mp h label hl
  rw [hd] at hlabel
  exact hlabel hreq

theorem admits_of_checks (hin : u.InSchema w.schema) (hl : u.label∈labels) (hex : ∀ b, some b=exclude → b=id)
    (hunique : ∀ p d v, u.properties=[p] → w.schema.label u.label=some d → d.isUnique p=true →
      props.lookup p=some v → NoOther w exclude (u.label,[(p,v)]))
    (hcomposite : ∀ check ∈ compositeChecks w.schema labels props changed, NoOther w exclude check)
    (hchanged : ∀ keys ∈ changed, ∃ p ∈ u.properties, p∈keys) : u.Admits w.overlay.graph.nodes id labels' props := by
  rcases hin with ⟨p,d,hp,hd,hflag⟩ | ⟨c,hc,hlen,hcl,hcp⟩
  · exact admits_of_value hp hex fun v hv => hunique p d v hp hd hflag hv
  · refine admits_of_tuple hcp hex fun tuple ht => hcomposite _ ?_
    rw [← hcl]
    refine mem_compositeChecks hc hlen (hcl ▸ hl) (fun keys hk => ?_) ht
    obtain ⟨p,hp,hkey⟩ := hchanged keys hk
    exact ⟨p,(hcp p).mpr hp,hkey⟩

theorem allows_create (hin : R.InSchema w.schema)
    (hunique : ∀ check ∈ uniqueChecks w.schema labels props, NoOther w none check)
    (hcomposite : ∀ check ∈ compositeChecks w.schema labels props none, NoOther w none check)
    (hnull : notNullViolation w.schema labels props=none) : R.Allows w.overlay.graph id labels props := by
  refine ⟨fun u hu hl => ?_,fun l k hr hl => present_of_notNull hnull hl (hin.2 l k hr)⟩
  have hex : ∀ b : NodeId, some b=none → b=id := nofun
  exact admits_of_checks (hin.1 u hu) hl hex
    (fun p d v _ hd hflag hv => hunique _ (mem_uniqueChecks hl hd hflag hv)) hcomposite nofun hl

end

section

variable {n : NodeValue} {props : Properties} {labels : List String}

theorem Current.admits (h : Current w n) (hs : R.Satisfied w.overlay.graph) (hu : R.unique u)
    (hl : u.label∈n.labels)
    (hsame : ∀ p ∈ u.properties, props.lookup p=n.properties.lookup p ∨ props.lookup p=none) :
    u.Admits w.overlay.graph.nodes n.id labels props := by
  by_cases hall : ∀ p ∈ u.properties, props.lookup p=n.properties.lookup p
  · rcases h with hnil | ⟨r,hr,hlabels,hprops⟩
    · rw [hnil] at hl
      cases hl
    · exact .of_same (hs.1 u hu) hr (hlabels _ hl) fun p hp => (hall p hp).trans (hprops p)
  · push Not at hall
    obtain ⟨p,hp,hne⟩ := hall
    refine .of_missing hp fun ⟨v,hv,_⟩ => ?_
    rw [(hsame p hp).resolve_left hne] at hv
    cases hv

theorem Current.present (h : Current w n) (hs : R.Satisfied w.overlay.graph) (hr : R.required label key)
    (hl : label∈n.labels) : Present n.properties key := by
  rcases h with hnil | ⟨r,hlookup,hlabels,hprops⟩
  · rw [hnil] at hl
    cases hl
  · obtain ⟨v,hv,hnull⟩ := hs.2 label key hr n.id r hlookup (hlabels _ hl)
    exact ⟨v,(hprops key).trans hv,hnull⟩

/-- Nobody else holds the value where one of the labels makes the property unique. -/
def Unclaimed (w : Writer) (labels : List String) (id : NodeId) (key : String) (value : Value) : Prop :=
  ∀ label ∈ labels, ∀ d, w.schema.label label=some d → d.isUnique key=true →
    NoOther w (some id) (label,[(key,value)])

/-- New values for the properties in `changed`, each of them checked under the node's labels. The others keep their
value or are gone. -/
theorem allows_changed (h : Current w n) (hI : Inv R w)
    (hunique : ∀ p ∈ changed, ∀ v, props.lookup p=some v → Unclaimed w n.labels n.id p v)
    (hcomposite : ∀ check ∈ compositeChecks w.schema n.labels props (some changed), NoOther w (some n.id) check)
    (hsame : ∀ p, p∉changed → props.lookup p=n.properties.lookup p ∨ props.lookup p=none)
    (hnull : ∀ label ∈ n.labels, ∀ key, R.required label key → Present props key) :
    R.Allows w.overlay.graph n.id n.labels props := by
  refine ⟨fun u hu hl => ?_,fun l k hr hl => hnull l hl k hr⟩
  by_cases htouch : ∃ p ∈ u.properties, p∈changed
  · refine admits_of_checks (hI.2.1 u hu) hl (fun b => Option.some.inj)
      (fun p d v hp hd hflag hv => hunique p ?_ v hv u.label hl d hd hflag) hcomposite (by rintro _ ⟨⟩; exact htouch) hl
    obtain ⟨q,hq,hchanged⟩ := htouch
    rw [hp,mem_singleton] at hq
    exact hq ▸ hchanged
  · push Not at htouch
    exact h.admits hI.1.overlay hu hl (fun p hp => hsame p (htouch p hp)) hl

theorem allows_gained (h : Current w n) (hI : Inv R w) (hkept : R.Kept n.properties props)
    (hunique : ∀ p v, props.lookup p=some v → Unclaimed w added n.id p v)
    (hcomposite : ∀ check ∈ compositeChecks w.schema added props none, NoOther w (some n.id) check)
    (hnull : notNullViolation w.schema added n.properties=none) :
    R.Allows w.overlay.graph n.id (n.labels++added) props := by
  refine ⟨fun u hu hl => ?_,fun l k hr hl => hkept.2 l k hr ?_⟩
  · rcases mem_append.mp hl with hold | hnew
    · exact h.admits hI.1.overlay hu hold (fun p hp => .inl (hkept.1 u hu p hp)) hl
    · exact admits_of_checks (hI.2.1 u hu) hnew (fun b => Option.some.inj)
        (fun p d v _ hd hflag hv => hunique p v hv u.label hnew d hd hflag) hcomposite nofun hl
  · rcases mem_append.mp hl with hold | hnew
    · exact h.present hI.1.overlay hr hold
    · exact present_of_notNull hnull hnew (hI.2.2 l k hr)

theorem allows_fewer (h : Current w n) (hI : Inv R w) (hsub : ∀ l ∈ labels, l∈n.labels) :
    R.Allows w.overlay.graph n.id labels n.properties :=
  ⟨fun _ hu hl => h.admits hI.1.overlay hu (hsub _ hl) (fun _ _ => .inl rfl) hl,
    fun _ _ hr hl => h.present hI.1.overlay hr (hsub _ hl)⟩

end

variable {Expr : Type} (L : Language Expr)

namespace Checked
section

variable {row : Row} {n : NodeValue}
variable {key : String} {replace : Bool} {incoming : List (String × Value)}

theorem does_rewriteNode (h : Inv R w → R.Allows w.overlay.graph n.id labels props) :
    Does (sem R) (Inv R) (rewriteNode row n labels props) (fun _ _ => True) (fun _ _ => True) w :=
  Does.bind (does_upsertNode h) fun _ w' _ => (safe_orFail _).bind (fun _ => .ret _) w'

theorem rewriteRel (row : Row) (r : RelValue) (properties : Properties) :
    Safe (sem R) (Inv R) (rewriteRel row r properties) :=
  (upsertEdge _ properties).bind fun _ => (safe_orFail _).bind fun _ => .ret _

theorem does_compositeUnique
    (hf : ∀ w', SameButIndex w w' → (∀ check ∈ compositeChecks w.schema labels props changed, NoOther w exclude check) →
      Does (sem R) (Inv R) (f ()) P (fun _ _ => True) w') :
    Does (sem R) (Inv R) (enforceCompositeUnique L labels props exclude changed >>= f) P (fun _ _ => True) w :=
  does_checks (fun s => compositeChecks s labels props changed) exclude _ hf

variable (labels : List String)

theorem createNode (m : Language.Materialized) : Safe (sem R) (Inv R) (createNode L labels m) := by
  refine (Quiet.chooseId L quiet _).bind fun id w => ?_
  refine does_checks (fun s => uniqueChecks s labels m.properties) none _ ?_
  rintro w' ⟨i,rfl⟩ hunique
  refine does_compositeUnique L ?_
  rintro w' ⟨j,rfl⟩ hcomposite
  refine does_notnull fun hnull => does_vectorDims fun stored hstored => ?_
  refine Does.bind (does_upsertNode fun hI => ?_) fun _ w' _ => (safe_orFail _).bind (fun _ => Safe.ret _) w'
  exact (allows_create hI.2 hunique hcomposite hnull).kept hstored

theorem does_uniqueOnSet (key : String) (value : Value) (id : NodeId) :
    Does (sem R) (Inv R) (enforceUniqueOnSet L labels key value id)
      (fun _ w' => SameButIndex w w' ∧ Unclaimed w labels id key value) (fun _ _ => True) w := by
  refine .bind (does_session sem_answers quiet) ?_
  rintro _ w' ⟨rfl,rfl⟩
  refine (does_rejectConflicts (some id) _ _).mono (fun _ w'' h => ⟨h.1,fun label hl d hd hflag => ?_⟩) fun _ _ h => h
  refine h.2 _ (mem_map.mpr ⟨label,mem_filter.mpr ⟨hl,?_⟩,rfl⟩)
  rw [hd]
  exact hflag

theorem setNodeProperty {core : Value} (h : Current w n) :
    Does (sem R) (Inv R) (setNodeProperty L row n key core) (fun _ _ => True) (fun _ _ => True) w := by
  refine .bind (does_uniqueOnSet L n.labels key core n.id) ?_
  rintro _ w' ⟨⟨i,rfl⟩,hunique⟩
  refine .bind (does_session sem_answers quiet) ?_
  rintro _ w' ⟨rfl,rfl⟩
  split
  · exact .fail trivial
  next hnull =>
  refine does_compositeUnique L ?_
  rintro w' ⟨j,rfl⟩ hcomposite
  refine does_vectorDims fun stored hstored => does_rewriteNode fun hI => .kept ?_ hstored
  refine allows_changed h hI (fun p hp v hv => ?_) hcomposite (fun p hp => .inl ?_) fun label hl k hr => ?_
  · rw [mem_singleton.mp hp,lookup_insert] at hv
    cases hv
    exact mem_singleton.mp hp ▸ hunique
  · exact lookup_insert_ne fun hk => hp (mem_singleton.mpr hk)
  · by_cases hk : k=key
    · subst hk
      refine ⟨core,lookup_insert _,Bool.eq_false_iff.mpr fun hcore => ?_⟩
      cases hfind : notNullLabel w.schema n.labels k with
      | some found => exact hnull found hcore hfind
      | none => exact not_requires_of_notNullLabel hfind hl (hI.2.2 label k hr)
    · obtain ⟨v,hv,hvnull⟩ := Current.present h hI.1.overlay hr hl
      exact ⟨v,(lookup_insert_ne hk).trans hv,hvnull⟩

theorem lookup_mergedProps (hp : p∉incoming.map (·.1)) :
    (mergedProps replace current incoming).lookup p=current.lookup p ∨
      (mergedProps replace current incoming).lookup p=none := by
  have hfold : ∀ out : Properties, (incoming.foldl (fun out e => if e.2.isNull then out.erase e.1
      else out.insert e.1 e.2) out).lookup p=out.lookup p := by
    induction incoming with
    | nil => exact fun _ => rfl
    | cons e incoming ih =>
      intro out
      rw [map_cons,mem_cons,not_or] at hp
      rw [foldl_cons,ih hp.2]
      split
      · exact lookup_erase_ne hp.1
      · exact lookup_insert_ne hp.1
  rw [mergedProps,hfold]
  cases replace with
  | true => exact .inr rfl
  | false => exact .inl rfl

theorem setNodeMap (h : Current w n) :
    Does (sem R) (Inv R) (setNodeMap L row n replace incoming) (fun _ _ => True) (fun _ _ => True) w := by
  refine .bind (P := fun _ w' => SameButIndex w w' ∧ ∀ p ∈ incoming.map (·.1), ∀ v,
    (mergedProps replace n.properties incoming).lookup p=some v → Unclaimed w n.labels n.id p v) ?_ ?_
  · refine .forM (fun done w' => SameButIndex w w' ∧ ∀ p ∈ done, ∀ v,
      (mergedProps replace n.properties incoming).lookup p=some v → Unclaimed w n.labels n.id p v)
      (fun done p w' hdone => ?_) _ ⟨.refl w,fun _ h => absurd h not_mem_nil⟩
    obtain ⟨⟨i,rfl⟩,hdone⟩ := hdone
    split
    · next value hvalue =>
      refine (does_uniqueOnSet L n.labels p value n.id).mono (fun _ w' hone => ?_) fun _ _ h => h
      obtain ⟨⟨j,rfl⟩,hone⟩ := hone
      refine ⟨⟨j,rfl⟩,fun q hq v hv => ?_⟩
      rcases mem_append.mp hq with hq | hq
      · exact hdone q hq v hv
      · rw [mem_singleton.mp hq] at hv ⊢
        cases hvalue.symm.trans hv
        exact hone
    · next hvalue =>
      refine .ret ⟨⟨i,rfl⟩,fun q hq v hv => ?_⟩
      rcases mem_append.mp hq with hq | hq
      · exact hdone q hq v hv
      · rw [mem_singleton.mp hq] at hv
        cases hvalue.symm.trans hv
  rintro _ w' ⟨⟨i,rfl⟩,hunique⟩
  refine does_compositeUnique L ?_
  rintro w' ⟨j,rfl⟩ hcomposite
  refine does_notnull fun hnull => does_vectorDims fun stored hstored => ?_
  refine does_rewriteNode fun hI => .kept ?_ hstored
  refine allows_changed h hI hunique hcomposite (fun p hp => lookup_mergedProps hp) fun label hl key hr => ?_
  exact present_of_notNull hnull hl (hI.2.2 label key hr)

theorem setNodeLabels {labels : List String} (h : Current w n) :
    Does (sem R) (Inv R) (setNodeLabels L row n labels) (fun _ _ => True) (fun _ _ => True) w := by
  refine does_notnull fun hnull => does_vectorDims fun stored hstored => ?_
  refine .bind (P := fun _ w' => SameButIndex w w' ∧ ∀ e ∈ stored.entries,
    Unclaimed w (gainedLabels n.labels labels) n.id e.1 e.2) ?_ ?_
  · refine .forM (fun (done : List (Sigma fun _ : String => Value)) w' => SameButIndex w w' ∧ ∀ e ∈ done,
      Unclaimed w (gainedLabels n.labels labels) n.id e.1 e.2)
      (fun done e w' hdone => ?_) _ ⟨.refl w,fun _ h => absurd h not_mem_nil⟩
    obtain ⟨⟨i,rfl⟩,hdone⟩ := hdone
    refine (does_uniqueOnSet L _ e.1 e.2 n.id).mono (fun _ w' hone => ?_) fun _ _ h => h
    obtain ⟨⟨j,rfl⟩,hone⟩ := hone
    exact ⟨⟨j,rfl⟩,forall_mem_append.mpr ⟨hdone,forall_mem_singleton.mpr hone⟩⟩
  rintro _ w' ⟨⟨i,rfl⟩,hunique⟩
  refine does_compositeUnique L ?_
  rintro w' ⟨j,rfl⟩ hcomposite
  have hcurrent : Current { w with index := j } n := h
  refine does_rewriteNode fun hI => allows_gained hcurrent hI hstored (fun p v hv => ?_) hcomposite hnull
  exact hunique ⟨p,v⟩ (mem_lookup_iff.mp hv)

theorem setMap (h : ∀ n, row targetAlias=some (.node n) → Current w n) :
    Does (sem R) (Inv R) (applySetMap L replace targetAlias value row) (fun _ _ => True) (fun _ _ => True) w := by
  refine .bind (does_orFail (P := fun _ w' => w'=w) fun _ _ => rfl) ?_
  rintro v w' rfl
  refine .bind (does_orFail (P := fun _ w'' => w''=w') fun _ _ => rfl) ?_
  rintro entries w'' rfl
  cases entries with
  | none => exact .ret trivial
  | some entries =>
    simp only
    split
    · next n hn =>
      refine .bind (does_orFail (P := fun _ w' => w'=w'') fun _ _ => rfl) ?_
      rintro incoming w' rfl
      exact setNodeMap L (h n hn)
    · exact ((safe_orFail _).bind fun incoming => rewriteRel row _ _) w''
    · exact .fail trivial

theorem set (row : Row) (op : SetOp Expr) : Safe (sem R) (Inv R) (applySet L row op) := by
  intro w
  refine .bind (does_refreshTarget row op.targetAlias) ?_
  rintro row w' ⟨rfl,hcurrent⟩
  cases op with
  | property targetAlias key value =>
    refine .bind (does_orFail (P := fun _ w'' => w''=w') fun _ _ => rfl) ?_
    rintro v w'' rfl
    refine .bind (does_orFail (P := fun _ w' => w'=w'') fun _ _ => rfl) ?_
    rintro core w' rfl
    split
    · next n hn => exact setNodeProperty L (hcurrent n hn)
    · exact rewriteRel row _ _ w'
    · exact .fail trivial
  | replace targetAlias value | merge targetAlias value => exact setMap L hcurrent
  | labels targetAlias labels =>
    rw [applySetOp]
    split
    · next n hn => exact setNodeLabels L (hcurrent n hn)
    · exact .fail trivial

theorem removeNodeProperty (h : Current w n) :
    Does (sem R) (Inv R) (removeNodeProperty row n key) (fun _ _ => True) (fun _ _ => True) w := by
  refine Does.bind (does_session sem_answers quiet) ?_
  rintro _ w' ⟨rfl,rfl⟩
  split
  · exact Does.fail trivial
  next hnull =>
  have hlookup : ∀ k, k≠key → (n.properties.erase key).lookup k=n.properties.lookup k :=
    fun k hk => lookup_erase_ne hk
  refine does_rewriteNode fun hI => ⟨fun u hu hl => ?_,fun label k hr hl => ?_⟩
  · refine Current.admits h hI.1.overlay hu hl (fun p _ => ?_) hl
    by_cases hp : p=key
    · exact .inr (hp ▸ lookup_erase _ _)
    · exact .inl (hlookup p hp)
  · obtain ⟨v,hv,hvnull⟩ := Current.present h hI.1.overlay hr hl
    refine ⟨v,(hlookup k ?_).trans hv,hvnull⟩
    rintro rfl
    exact not_requires_of_notNullLabel hnull hl (hI.2.2 label k hr)

theorem remove (row : Row) (op : RemoveOp) : Safe (sem R) (Inv R) (applyRemove L row op) := by
  intro w
  refine .bind (does_refreshTarget row op.targetAlias) ?_
  rintro row w' ⟨rfl,hcurrent⟩
  cases op with
  | property targetAlias key =>
    rw [applyRemoveOp]
    split
    · next n hn => exact removeNodeProperty (hcurrent n hn)
    · exact rewriteRel row _ _ w'
    · exact .fail trivial
  | labels targetAlias labels =>
    rw [applyRemoveOp]
    split
    · next n hn =>
      exact does_rewriteNode fun hI => allows_fewer (hcurrent n hn) hI fun l hl => (mem_filter.mp hl).1
    · exact .fail trivial

variable (node : NodeId)

theorem detachEdgeType (edgeType : String) : Safe (sem R) (Inv R) (detachEdgeType node edgeType) := by
  refine (Quiet.ask quiet rfl).bind fun _ => (safe_orFail _).bind fun _ => (Quiet.ask quiet rfl).bind fun _ => ?_
  refine (safe_orFail _).bind fun _ => Safe.forM (fun key => ?_) _
  refine (Quiet.ask quiet rfl).bind fun _ => (safe_orFail _).bind fun _ => ?_
  exact (tombstoneEdge key).bind fun _ => safe_orFail _

theorem incidentAmong (edgeTypes : List String) : Safe (sem R) (Inv R) (incidentAmong node edgeTypes) := by
  induction edgeTypes with
  | nil => exact Safe.ret _
  | cons edgeType edgeTypes ih =>
    refine (Quiet.ask quiet rfl).bind fun _ => (safe_orFail _).bind fun _ => (Quiet.ask quiet rfl).bind fun _ => ?_
    refine (safe_orFail _).bind fun _ => ?_
    split
    · exact ih
    · exact Safe.ret _

theorem rejectConnected : Safe (sem R) (Inv R) (rejectConnected node) := by
  refine ((Quiet.ask quiet rfl).bind fun _ => incidentAmong node _).bind fun found => ?_
  cases found with
  | none => exact Safe.ret _
  | some edgeType => exact Safe.fail _

theorem deleteNode (detach : Bool) (node : NodeId) : Safe (sem R) (Inv R) (deleteNode detach node) := by
  have htomb : Safe (sem R) (Inv R) (ask (.tombstoneNode node) >>= fun done => orFail done) :=
    (tombstoneNode node).bind fun _ => safe_orFail _
  cases detach with
  | true => exact ((Quiet.ask quiet rfl).bind fun w => Safe.forM (detachEdgeType node) _).bind fun _ => htomb
  | false => exact (rejectConnected node).bind fun _ => htomb

end

theorem keeps : Keeps L (sem R) (Inv R) where
  quiet := quiet
  create := safe_create L (createNode L) upsertEdge
  set := set L
  remove := remove L
  delete := safe_delete L deleteNode tombstoneEdge

end Checked

def declared (s : Schema) : Rules := ⟨fun u => u.InSchema s,s.Requires⟩

def literals : Language RuntimeValue where
  evaluate v _ := .ok v
  text := RuntimeValue.typeName
  nodeId _ := .error (.eval "NodeId must be a UUID string or Node")
  nodeIdText := toString
  debug _ := ""
  debugBinding _ := ""
  parameter _ := none
  isDirectPropertyOf _ _ := false
  chunkRows := 1

def emptyBase : Base where
  graph := ⟨∅,∅⟩
  edgeTypes := []
  typed := typed_empty
  distinct := nodup_nil

theorem Rules.satisfied_empty (R : Rules) : R.Satisfied emptyBase.graph := ⟨fun _ _ => nofun,fun _ _ _ => nofun⟩

/-- `CREATE (:User {key: value})`. -/
def createUser (key : String) (value : RuntimeValue) : Deed RuntimeValue :=
  .committed (.create .empty [.node "u" ["User"] [(key,value)] none])

def userSchema (p : PropertyDef) : Schema := { labels := [⟨"User",[p]⟩] }

def uniqueEmail : PropertyDef := { name := "email", dataType := .utf8, nullable := true, unique := true }

def uniqueEmbedding : PropertyDef :=
  { name := "embedding", dataType := .floatVector 1, nullable := true, unique := true }

def requiredScore : PropertyDef := { name := "score", dataType := .float64, nullable := false }

def embeddingIndex : VectorIndexDescriptor where
  name := "user_embedding"
  label := "User"
  property := "embedding"
  dim := 1
  metric := .cosine
  r := 32
  lBuild := 64
  alpha := 0
  quantization := .none

def ones : RuntimeValue := .list [.float 0x3ff0000000000000]

def nan : RuntimeValue := .float 0x7ff8000000000000

def Uniqueness.conflict (u : Uniqueness) (nodes : Overlay) (a b : NodeId) : Bool :=
  match nodes.lookup a, nodes.lookup b with
  | some ra, some rb => decide (u.label∈ra.labels)&&decide (u.label∈rb.labels)&&u.properties.all fun p =>
    match ra.props.lookup p, rb.props.lookup p with
    | some v, some w => !v.isNull&&v.eq w
    | _, _ => false
  | _, _ => false

theorem Uniqueness.not_distinct_of_conflict {u : Uniqueness} (hab : a≠b) (h : u.conflict nodes a b=true) :
    ¬u.Distinct nodes := by
  unfold Uniqueness.conflict at h
  split at h
  · next ra rb ha hb =>
    simp only [Bool.and_eq_true,decide_eq_true_eq,all_eq_true] at h
    refine fun hdistinct => hdistinct a b ra rb hab ha hb h.1.1 h.1.2 fun p hp => ?_
    have hp := h.2 p hp
    split at hp
    · next v w hv hw =>
      rw [Bool.and_eq_true,Bool.not_eq_true'] at hp
      exact ⟨v,w,hv,hw,hp.1,hp.2⟩
    · cases hp
  · cases h

theorem lookup_jsonProperties (props : Properties) (k : String) :
    (jsonProperties props).lookup k=(props.lookup k).map jsonValue := by
  have hfold : ∀ (entries : List (Sigma fun _ : String => Value)) (out : Properties), entries.NodupKeys →
      (entries.foldl (fun out e => out.insert e.1 (jsonValue e.2)) out).lookup k =
        ((entries.dlookup k).map jsonValue).or (out.lookup k) := by
    intro entries
    induction entries with
    | nil => exact fun _ _ => rfl
    | cons e entries ih =>
      intro out hnodup
      obtain ⟨hnot,hnodup⟩ := nodupKeys_cons.mp hnodup
      rw [foldl_cons,ih _ hnodup]
      by_cases hk : k=e.1
      · subst hk
        rw [dlookup_eq_none.mpr hnot,lookup_insert,dlookup_cons_eq]
        rfl
      · rw [lookup_insert_ne hk,dlookup_cons_ne _ _ hk]
  rw [jsonProperties,hfold _ _ props.nodupKeys]
  exact Option.or_none

def isText : Value → Bool
  | .str _ => true
  | _ => false

theorem lookup_storedProperties (h : props.entries.all (fun e => isText e.2)=true) (k : String) :
    (storedProperties props).lookup k=props.lookup k := by
  unfold storedProperties
  split
  · rfl
  rw [lookup_jsonProperties]
  cases hv : props.lookup k with
  | none => rfl
  | some v =>
    have htext := all_eq_true.mp h ⟨k,v⟩ (mem_lookup_iff.mp hv)
    cases v with
    | str s => rfl
    | _ => cases htext

/-- A decidable condition that is enough for a request to be sound: the index is used as it should be, texts only, no
vector indexes, and no writes to what was read. -/
def plain (w : Writer) (o : Request) : Bool :=
  (o.act.all fun act => w.unique.allowed act&&w.unique.careful act) &&
    match o with
    | .upsertNode _ _ properties => properties.entries.all fun e => isText e.2
    | .enter (.enforceVectorDims _ _ _) => w.vectorIndexes.isEmpty
    | .enter (.untouchedTarget node) => node.labels.isEmpty
    | _ => true

theorem sound_of_plain (h : plain w o=true) : sound R w o := by
  obtain ⟨hact,h⟩ := Bool.and_eq_true_iff.mp h
  refine ⟨fun act hmem => ?_,?_⟩
  · rw [Option.mem_def.mp hmem] at hact
    exact Bool.and_eq_true_iff.mp hact
  cases o with
  | upsertNode labels id properties =>
    have hlookup := lookup_storedProperties h
    refine ⟨⟨fun u _ p _ => hlookup p,fun _ k _ ⟨v,hv,hnull⟩ => ⟨v,(hlookup k).trans hv,hnull⟩⟩,fun c => ?_⟩
    simp only [IndexState.recordKey,encodeNodeKey,hlookup]
  | enter call =>
    cases call with
    | enforceVectorDims labels props changed =>
      intro u _ desc hdesc
      rw [isEmpty_iff.mp h] at hdesc
      exact absurd hdesc not_mem_nil
    | untouchedTarget node => exact .inl (isEmpty_iff.mp h)
  | _ => trivial

theorem sound_runs {deeds : List (Deed Expr)} {steps : Nat} {w' : Writer} {q : Prog Reply (Except ExecError Unit)}
    (h : firstSteps L plain deeds w steps=some (q,w')) :
    Runs (guarded (sound R) tended) (serve L deeds).run w q w' :=
  follow_runs (fun {s o id r s'} hexec => by
    split at hexec
    · next hok =>
      have hans := s.answer_answers id o
      refine ⟨sound_of_plain hok,?_,?_⟩
      · rwa [Option.some.inj hexec] at hans
      · cases o with
        | read | candidates =>
          cases hexec
          exact ⟨[],rfl⟩
        | _ => trivial
    · cases hexec) h

/-- The second `CREATE` has the email of the first one and is rejected. -/
def threeUsers : List (Deed RuntimeValue) :=
  [createUser "email" (.string "ada"),createUser "email" (.string "ada"),createUser "email" (.string "eve")]

end NamiDB.Query
