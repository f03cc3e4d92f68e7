import NamiDB.Storage.UniqueIndexSlot

/-! What a scan of the overlay finds, in terms of the keys that the index files nodes under. -/
namespace NamiDB.Storage
open Lib List IndexState

structure NodeRecord where
  labels : List String
  props : Properties

/-- The nodes of committed state plus surviving staged operations. -/
abbrev Overlay := AList fun _ : NodeId => NodeRecord

namespace Overlay

/-- The empty label is every node's. -/
def carries (record : NodeRecord) (label : String) : Bool :=
  decide (label = "" ∨ label∈record.labels)

def scanLabel (self : Overlay) (label : String) : List (NodeId × Properties) :=
  (self.entries.filter fun e => carries e.2 label).map fun e => (e.1,e.2.props)

def holdsValues (probe : List (String × Value)) (props : Properties) : Bool :=
  probe.all fun p => match props.lookup p.1 with
    | some v => v.eq p.2
    | none => false

/-- The flat scan: every node of the label whose properties equal the probed ones. -/
def scanHolders (self : Overlay) (label : String) (probe : List (String × Value)) : List NodeId :=
  ((self.scanLabel label).filter fun e => holdsValues probe e.2).map (·.1)

def keyAt (self : Overlay) (identity : ConstraintId) (n : NodeId) : Option UniqueKey :=
  (self.lookup n).bind fun r => IndexState.recordKey r.labels r.props identity

end Overlay

open Overlay (keyAt scanLabel holdsValues carries)

section

variable {overlay : Overlay} {identity : ConstraintId} {id n : NodeId}
variable {probe : List (String × Value)} {key : UniqueKey}

theorem fold_zero_eq_iff (f g : BitVec 64) :
    (if isZero g then 0#64 else g)=(if isZero f then 0#64 else f) ↔ g=f ∨ isZero g=true ∧ isZero f=true := by
  have hzero : isZero 0#64=true := by decide
  by_cases hf : isZero f=true <;> by_cases hg : isZero g=true
  · simp [hf,hg]
  · have hne : g≠0#64 := fun h => hg (h ▸ hzero)
    have hne' : g≠f := fun h => hg (h ▸ hf)
    simp [hf,hne,hne']
  · have hne : 0#64≠f := fun h => hf (h ▸ hzero)
    have hne' : g≠f := fun h => hf (h ▸ hg)
    simp [hg,hne,hne']
  · simp [hf,hg]

theorem keyPart_eq_iff (hv : keyPart v=some part) : keyPart w=some part ↔ w.eq v=true := by
  cases v with
  | f64 f =>
    have hf : isNan 52 f=false := by
      by_contra h
      simp [keyPart,h] at hv
    simp only [keyPart,hf,Bool.false_eq_true,if_false,Option.some.injEq] at hv
    subst hv
    cases w with
    | f64 g =>
      cases hg : isNan 52 g with
      | true => simp [keyPart,Value.eq,floatEq,hg]
      | false => simp [keyPart,Value.eq,floatEq,hg,hf,fold_zero_eq_iff f g]
    | _ => simp [keyPart,Value.eq]
  | null | vec | vecI8 | list | map => simp [keyPart] at hv
  | _ =>
    simp only [keyPart,Option.some.injEq] at hv
    subst hv
    cases w <;> simp [keyPart,Value.eq]

theorem encodeNodeKey_eq_iff (hkey : encodeProbeKey (probe.map (·.2))=some key) (props : Properties) :
    encodeNodeKey (probe.map (·.1)) props=some key ↔ holdsValues probe props=true := by
  induction probe generalizing key with
  | nil =>
    simp [encodeProbeKey] at hkey
    simp [encodeNodeKey,holdsValues,← hkey]
  | cons p probe ih =>
    simp only [encodeProbeKey,map_cons,mapM_cons] at hkey
    obtain ⟨part,hpart,hkey⟩ := Option.bind_eq_some_iff.mp hkey
    obtain ⟨rest,hrest,⟨⟩⟩ := Option.bind_eq_some_iff.mp hkey
    have hcons : encodeNodeKey ((p::probe).map (·.1)) props=some (part::rest) ↔
        (props.lookup p.1).bind keyPart=some part ∧ encodeNodeKey (probe.map (·.1)) props=some rest := by
      simp [encodeNodeKey,Option.bind_eq_some_iff]
    have hhead : (props.lookup p.1).bind keyPart=some part ↔
        (match props.lookup p.1 with | some v => v.eq p.2 | none => false)=true := by
      cases props.lookup p.1 with
      | none => simp
      | some v => exact keyPart_eq_iff hpart
    rw [hcons,ih hrest,hhead,holdsValues,holdsValues,all_cons,Bool.and_eq_true]

theorem entries_lookup (overlay : Overlay) (n : NodeId) (r : NodeRecord) :
    ⟨n,r⟩∈overlay.entries ↔ overlay.lookup n=some r := by
  rw [← AList.mem_lookup_iff,Option.mem_def]

theorem keyAt_eq_some_iff : overlay.keyAt identity n=some key ↔
    ∃ r, overlay.lookup n=some r ∧ carries r identity.1=true ∧ encodeNodeKey identity.2 r.props=some key := by
  simp only [keyAt,Option.bind_eq_some_iff,recordKey,carries]
  refine exists_congr fun r => and_congr_right fun _ => ?_
  split
  · simp [*]
  · simp [*]

theorem mem_scanHolders (hkey : encodeProbeKey (probe.map (·.2))=some key) :
    n∈overlay.scanHolders label probe ↔ overlay.keyAt (label,probe.map (·.1)) n=some key := by
  simp only [Overlay.scanHolders,scanLabel,mem_map,mem_filter,keyAt_eq_some_iff,encodeNodeKey_eq_iff hkey]
  constructor
  · rintro ⟨_,⟨⟨⟨m,r⟩,⟨he,hc⟩,rfl⟩,hv⟩,rfl⟩
    exact ⟨r,(entries_lookup overlay m r).mp he,hc,hv⟩
  · rintro ⟨r,hr,hc,hv⟩
    exact ⟨_,⟨⟨⟨n,r⟩,⟨(entries_lookup overlay n r).mpr hr,hc⟩,rfl⟩,hv⟩,rfl⟩

theorem nodup_scanHolders (overlay : Overlay) (label : String) (probe : List (String × Value)) :
    (overlay.scanHolders label probe).Nodup := by
  refine .sublist ?_ overlay.keys_nodup
  refine ((filter_sublist).map _).trans ?_
  rw [scanLabel,map_map]
  exact filter_sublist.map _

theorem keyAt_insert (record : NodeRecord) : keyAt (overlay.insert id record) identity =
    Function.update (overlay.keyAt identity) id (IndexState.recordKey record.labels record.props identity) := by
  funext n
  by_cases hn : n=id
  · subst hn
    simp [keyAt]
  · simp [keyAt,hn]

theorem keyAt_erase : keyAt (overlay.erase id) identity = Function.update (overlay.keyAt identity) id none := by
  funext n
  by_cases hn : n=id
  · subst hn
    simp [keyAt]
  · simp [keyAt,hn]

end

section

variable {overlay : Overlay} {label : String} {names : List String}

variable (names) in
theorem wf_foldl_fileEntry {l : List (NodeId × Properties)} (hl : (l.map (·.1)).Nodup) (h : m.WF)
    (hnew : ∀ e ∈ l, m.byNode.lookup e.1=none) : (l.foldl (IndexState.fileEntry names) m).WF := by
  induction l generalizing m with
  | nil => exact h
  | cons e l ih =>
    obtain ⟨he,hl⟩ := nodup_cons.mp hl
    have hrest : ∀ e' ∈ l, m.byNode.lookup e'.1=none := fun e' he' => hnew e' (.tail _ he')
    rw [foldl_cons,fileEntry]
    split
    · refine ih hl (h.file (hnew e (.head _)) _) fun e' he' => ?_
      have hne : e'.1≠e.1 := fun hcon => he (mem_map.mpr ⟨e',he',hcon⟩)
      rw [ConstraintMap.byNode_file,if_neg hne,hrest e' he']
    · exact ih hl h hrest

def scannedMap (overlay : Overlay) (label : String) (names : List String) : ConstraintMap :=
  { (overlay.scanLabel label).foldl (IndexState.fileEntry names) .empty with complete := true }

theorem wf_scannedMap : (scannedMap overlay label names).WF := by
  have hnodup : ((overlay.scanLabel label).map (·.1)).Nodup := by
    rw [scanLabel,map_map]
    exact overlay.keys_nodup.sublist (filter_sublist.map _)
  have h := wf_foldl_fileEntry names hnodup ConstraintMap.wf_empty
    (by simp [ConstraintMap.empty])
  exact ⟨h.mem_holdersOf,h.nonempty,h.nodup⟩

theorem fileEntry_carried (m : ConstraintMap) (e : Sigma fun _ : NodeId => NodeRecord) (n : NodeId) :
    (if carries e.2 label then IndexState.fileEntry names m (e.1,e.2.props) else m).byNode.lookup n =
      if n=e.1 then (IndexState.recordKey e.2.labels e.2.props (label,names)).or (m.byNode.lookup n)
      else m.byNode.lookup n := by
  unfold recordKey carries fileEntry
  by_cases hc : label = "" ∨ label∈e.2.labels
  · cases encodeNodeKey names e.2.props <;> simp [hc]
  · simp [hc]

theorem byNode_scannedMap (n : NodeId) :
    (scannedMap overlay label names).byNode.lookup n=overlay.keyAt (label,names) n := by
  show ((overlay.scanLabel label).foldl (fileEntry names) .empty).byNode.lookup n = _
  rw [scanLabel,foldl_map,foldl_filter,foldl_entries_view _ (fun (m : ConstraintMap) n => m.byNode.lookup n)
    (fun _ r old => (recordKey r.labels r.props (label,names)).or old)
    (fun m e n hn => (fileEntry_carried m e n).trans (if_neg hn))
    (fun m e => (fileEntry_carried m e e.1).trans (if_pos rfl))]
  rw [keyAt]
  cases overlay.lookup n <;> simp [ConstraintMap.empty]

theorem exact_scannedMap : (scannedMap overlay label names).view.Exact (overlay.keyAt (label,names)) :=
  .full (funext byNode_scannedMap) fun _ hk => by simp [ConstraintMap.view,scannedMap] at hk

end
end NamiDB.Storage
