import NamiDB.Storage.UniqueIndexView

/-! A journal entry that covers a map takes every view reached from it back to the same one. -/
namespace NamiDB.Storage
open Lib Option

namespace ConstraintUndo

variable {u later : ConstraintUndo} {m : ConstraintMap} {v : View} {id n : NodeId} {k : UniqueKey}
  {key : Option UniqueKey}

/-- Every key that the journaled nodes of a partial map hold, or held, has its own entry. -/
def Covers (u : ConstraintUndo) (v : View) : Prop :=
  v.complete=false → ∀ k, u.knownMisses.lookup k=none → ∀ n,
    u.byNode.lookup n≠some (some k) ∧ (u.byNode.lookup n≠none → v.byNode n≠some k)

theorem covers_empty (v : View) : empty.Covers v := fun _ _ _ n => by simp [empty]

theorem undo_empty (v : View) (hm : ∀ k, v.misses k → v.complete=false) : v.undo empty=v := by
  ext k
  · rfl
  · simp [View.undo,empty]
  · simp only [View.undo,empty]
    exact ⟨fun h => h.2,fun h => ⟨hm k h,h⟩⟩

@[simp] theorem createdInBatch_noteMisses (u : ConstraintUndo) (m : ConstraintMap) (ks : List UniqueKey) :
    (u.noteMisses m ks).createdInBatch=u.createdInBatch := by
  induction ks generalizing u with
  | nil => rfl
  | cons k ks ih => exact ih (u.noteMiss m k)

@[simp] theorem byNode_noteMisses (u : ConstraintUndo) (m : ConstraintMap) (ks : List UniqueKey) :
    (u.noteMisses m ks).byNode=u.byNode := by
  induction ks generalizing u with
  | nil => rfl
  | cons k ks ih => exact ih (u.noteMiss m k)

theorem lookup_noteMiss (u : ConstraintUndo) (m : ConstraintMap) (key k : UniqueKey) :
    (u.noteMiss m key).knownMisses.lookup k =
      (u.knownMisses.lookup k).or (if k=key then some (decide (k∈m.knownMisses)) else none) := by
  by_cases hk : k=key
  · subst hk
    simp [noteMiss]
  · simp [noteMiss,hk,lookup_orInsert_ne]

theorem lookup_noteMisses (u : ConstraintUndo) (m : ConstraintMap) (ks : List UniqueKey) (k : UniqueKey) :
    (u.noteMisses m ks).knownMisses.lookup k =
      (u.knownMisses.lookup k).or (if k∈ks then some (decide (k∈m.knownMisses)) else none) := by
  induction ks generalizing u with
  | nil => simp [noteMisses]
  | cons key ks ih =>
    show ((u.noteMiss m key).noteMisses m ks).knownMisses.lookup k = _
    rw [ih,lookup_noteMiss]
    by_cases hk : k=key
    · cases u.knownMisses.lookup k <;> simp [hk]
    · simp [hk]

@[simp] theorem createdInBatch_touch : (u.touch m id key).createdInBatch=u.createdInBatch := by
  unfold touch
  split
  · rfl
  · split
    · rfl
    · exact createdInBatch_noteMisses _ _ _

section
variable (hu : u.createdInBatch=false)
include hu

theorem lookup_byNode_touch : (u.touch m id key).byNode.lookup n =
      if n=id then (u.byNode.lookup id).or (some (m.byNode.lookup id)) else u.byNode.lookup n := by
  have hnote : (u.noteNode m id).byNode.lookup n =
      if n=id then (u.byNode.lookup id).or (some (m.byNode.lookup id)) else u.byNode.lookup n := by
    by_cases hn : n=id
    · subst hn
      simp [noteNode]
    · simp [noteNode,hn,lookup_orInsert_ne]
  unfold touch
  rw [if_neg (by simp [hu])]
  split
  · exact hnote
  · rwa [byNode_noteMisses]

theorem lookup_knownMisses_touch (hc : m.complete=false) :
    (u.touch m id key).knownMisses.lookup k=(u.knownMisses.lookup k).or
      (if m.byNode.lookup id=some k ∨ key=some k then some (decide (k∈m.knownMisses)) else none) := by
  unfold touch
  rw [if_neg (by simp [hu]),if_neg (by simp [hc]),lookup_noteMisses]
  simp [noteNode]

theorem undo_touch : (m.view.rehome id key).undo (u.touch m id key)=m.view.undo u := by
  ext k
  · rfl
  · simp only [View.undo,View.rehome,lookup_byNode_touch hu]
    by_cases hk : k=id
    · subst hk
      cases u.byNode.lookup k <;> simp [ConstraintMap.view]
    · simp [hk]
  · cases hc : m.complete with
    | true => simp [View.undo,View.rehome,ConstraintMap.view,hc]
    | false =>
      simp only [View.undo,lookup_knownMisses_touch hu hc]
      cases u.knownMisses.lookup k with
      | some was => simp [View.rehome]
      | none =>
        by_cases hk : m.byNode.lookup id=some k ∨ key=some k
        · simp [hk,View.rehome,ConstraintMap.view]
        · simp only [hk,none_or]
          simp only [not_or] at hk
          simp [View.rehome,ConstraintMap.view,hk.1,hk.2]

theorem Covers.touch (h : u.Covers m.view) : (u.touch m id key).Covers (m.view.rehome id key) := by
  intro hc k hk n
  rw [lookup_knownMisses_touch hu hc,or_eq_none_iff] at hk
  obtain ⟨hk,hnew⟩ := hk
  have hnew : m.byNode.lookup id≠some k ∧ key≠some k := by
    by_contra hcon
    rw [if_pos (by tauto)] at hnew
    cases hnew
  have hn := h hc k hk n
  rw [lookup_byNode_touch hu]
  by_cases hid : n=id
  · subst hid
    refine ⟨?_,fun _ => by simpa [View.rehome] using hnew.2⟩
    cases hb : u.byNode.lookup n with
    | none => simpa using hnew.1
    | some old => simpa [hb] using hn.1
  · simpa [hid,View.rehome] using hn

end

theorem undo_noteMiss (hc : m.complete=false) : (m.view.addMiss k).undo (u.noteMiss m k)=m.view.undo u := by
  ext k'
  · rfl
  · rfl
  · simp only [View.undo,View.addMiss,lookup_noteMiss]
    cases u.knownMisses.lookup k' with
    | some was => simp
    | none => by_cases hk : k'=k <;> simp [hk,ConstraintMap.view,hc]

theorem Covers.noteMiss (h : u.Covers m.view) : (u.noteMiss m k).Covers (m.view.addMiss k) := by
  intro hc k' hk' n
  rw [lookup_noteMiss,or_eq_none_iff] at hk'
  exact h hc k' hk'.1 n

theorem undo_mergeFrom (v : View) : v.undo (u.mergeFrom later)=(v.undo later).undo u := by
  ext k
  · rfl
  · simp only [View.undo,mergeFrom,lookup_orInsertAll]
    cases u.byNode.lookup k <;> simp
  · simp only [View.undo,mergeFrom,lookup_orInsertAll]
    cases u.knownMisses.lookup k with
    | some was => simp
    | none => cases later.knownMisses.lookup k <;> simp

theorem Covers.mergeFrom (hl : later.Covers v) (h : u.Covers (v.undo later)) : (u.mergeFrom later).Covers v := by
  intro hc k hk n
  simp only [ConstraintUndo.mergeFrom,lookup_orInsertAll,or_eq_none_iff] at hk ⊢
  have hu := h hc k hk.1 n
  have hr := hl hc k hk.2 n
  cases hb : u.byNode.lookup n with
  | none => simpa using hr
  | some old =>
    refine ⟨by simpa [hb] using hu.1,fun _ => ?_⟩
    have hv : ((later.byNode.lookup n).getD (v.byNode n))≠some k := hu.2 (by simp [hb])
    cases hlb : later.byNode.lookup n with
    | none => simpa [hlb] using hv
    | some old => exact hr.2 (by simp [hlb])

end ConstraintUndo

namespace IndexState

variable {u : ConstraintUndo} {m : ConstraintMap} {k : UniqueKey}

variable (l : List (Sigma fun _ : NodeId => Option UniqueKey))

theorem wf_foldl_rehome (h : m.WF) : (l.foldl (fun m e => m.rehome e.1 e.2) m).WF := by
  induction l generalizing m with
  | nil => exact h
  | cons e l ih => exact ih (h.rehome e.1 e.2)

theorem complete_foldl_rehome (h : m.WF) : (l.foldl (fun m e => m.rehome e.1 e.2) m).complete=m.complete := by
  induction l generalizing m with
  | nil => rfl
  | cons e l ih =>
    rw [List.foldl_cons,ih (h.rehome e.1 e.2)]
    exact congrArg View.complete (h.view_rehome e.1 e.2)

/-- A key that no moved node holds before or after keeps its standing. -/
theorem misses_foldl_rehome (h : m.WF) (hl : ∀ e ∈ l, e.2≠some k ∧ m.byNode.lookup e.1≠some k) :
    (l.foldl (fun m e => m.rehome e.1 e.2) m).view.misses k ↔ m.view.misses k := by
  induction l generalizing m with
  | nil => rfl
  | cons e l ih =>
    obtain ⟨hnew,hold⟩ := hl e (.head _)
    rw [List.foldl_cons,ih (h.rehome e.1 e.2)]
    · rw [h.view_rehome]
      simp [View.rehome,hnew,ConstraintMap.view,hold]
    · intro e' he'
      refine ⟨(hl e' (.tail _ he')).1,?_⟩
      rw [ConstraintMap.byNode_rehome]
      split
      · exact hnew
      · exact (hl e' (.tail _ he')).2

theorem restoreMiss_same (l : List (Sigma fun _ : UniqueKey => Bool)) (m : ConstraintMap) :
    ∃ ks, l.foldl restoreMiss m={ m with knownMisses := ks } := by
  induction l generalizing m with
  | nil => exact ⟨m.knownMisses,rfl⟩
  | cons e l ih =>
    obtain ⟨ks,hks⟩ := ih (restoreMiss m e)
    refine ⟨ks,hks.trans ?_⟩
    unfold restoreMiss
    split <;> rfl

theorem mem_foldl_restoreMiss (ks : AList fun _ : UniqueKey => Bool) (m : ConstraintMap) (k : UniqueKey) :
    k∈(ks.entries.foldl restoreMiss m).knownMisses ↔ match ks.lookup k with
      | some was => was=true
      | none => k∈m.knownMisses := by
  have h := foldl_entries_view restoreMiss (fun m k => k∈m.knownMisses) (fun _ was _ => was=true)
    (fun m e k hk => by
      unfold restoreMiss
      split <;> simp [ConstraintMap.addMiss,ConstraintMap.removeMiss,hk])
    (fun m e => by
      unfold restoreMiss
      split <;> simp [ConstraintMap.addMiss,ConstraintMap.removeMiss, *]) ks m k
  refine (Iff.of_eq h).trans ?_
  cases ks.lookup k <;> rfl

theorem byNode_foldl_rehome (ns : AList fun _ : NodeId => Option UniqueKey) (m : ConstraintMap) (n : NodeId) :
    (ns.entries.foldl (fun m e => m.rehome e.1 e.2) m).byNode.lookup n = (ns.lookup n).getD (m.byNode.lookup n) := by
  have h := foldl_entries_view (fun (m : ConstraintMap) e => m.rehome e.1 e.2) (fun m n => m.byNode.lookup n)
    (fun _ old _ => old) (fun m e n hn => by simp [hn]) (fun m e => by simp) ns m n
  refine h.trans ?_
  cases ns.lookup n <;> rfl

theorem wf_restoreMap (h : m.WF) : (restoreMap u m).WF := by
  obtain ⟨ks,hks⟩ := restoreMiss_same u.knownMisses.entries
    (u.byNode.entries.foldl (fun m e => m.rehome e.1 e.2) m)
  rw [restoreMap,hks]
  exact (wf_foldl_rehome _ h).with_misses ks

theorem view_restoreMap (h : m.WF) (hc : u.Covers m.view) : (restoreMap u m).view=m.view.undo u := by
  set mid := u.byNode.entries.foldl (fun m e => m.rehome e.1 e.2) m with hmid
  have hcomplete : mid.complete=m.complete := complete_foldl_rehome _ h
  have hmisses := fun k => mem_foldl_restoreMiss u.knownMisses mid k
  obtain ⟨ks,hks⟩ := restoreMiss_same u.knownMisses.entries mid
  rw [hks] at hmisses
  rw [restoreMap,← hmid,hks]
  ext k
  · exact hcomplete
  · simp only [ConstraintMap.view,View.undo]
    rw [hmid,byNode_foldl_rehome]
  · simp only [ConstraintMap.view,hcomplete,hmisses]
    refine and_congr_right fun hseeded => ?_
    cases hk : u.knownMisses.lookup k with
    | some was => rfl
    | none =>
      have hkept := misses_foldl_rehome u.byNode.entries h fun e he => by
        have he : u.byNode.lookup e.1=some e.2 := AList.mem_lookup_iff.mpr he
        obtain ⟨hold,hnow⟩ := hc hseeded k hk e.1
        exact ⟨by simpa [he] using hold,hnow (by simp [he])⟩
      simpa [ConstraintMap.view,← hmid,hcomplete,hseeded] using hkept

end IndexState
end NamiDB.Storage
