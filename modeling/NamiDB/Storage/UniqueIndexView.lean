import NamiDB.Storage.UniqueIndex

/-! What a constraint map and its journal mean, as functions of nodes and keys. -/
namespace NamiDB.Storage
open Lib Option AList

namespace ConstraintMap

/-- `holders` is the inverse of `byNode`. -/
structure WF (m : ConstraintMap) : Prop where
  mem_holdersOf : ∀ key id, id∈m.holdersOf key ↔ m.byNode.lookup id=some key
  nonempty : ∀ key ids, m.holders.lookup key=some ids → ids≠[]
  nodup : ∀ key, (m.holdersOf key).Nodup

theorem wf_empty : WF empty := ⟨by simp [empty,holdersOf],by simp [empty],by simp [empty,holdersOf]⟩

variable {m : ConstraintMap} {id n : NodeId} {key k : UniqueKey}

theorem WF.not_mem (h : m.WF) (hid : m.byNode.lookup id≠some k) : id∉m.holdersOf k :=
  fun hm => hid ((h.mem_holdersOf k id).mp hm)

theorem WF.isSome_holders (h : m.WF) : (m.holders.lookup k).isSome=true ↔ ∃ n, m.byNode.lookup n=some k := by
  constructor
  · intro hs
    obtain ⟨ids,hids⟩ := isSome_iff_exists.mp hs
    obtain ⟨n,hn⟩ := List.exists_mem_of_ne_nil ids (h.nonempty k ids hids)
    exact ⟨n,(h.mem_holdersOf k n).mp (by simpa [holdersOf,hids] using hn)⟩
  · rintro ⟨n,hn⟩
    have hm := (h.mem_holdersOf k n).mpr hn
    rw [holdersOf] at hm
    cases hl : m.holders.lookup k with
    | none => simp [hl] at hm
    | some ids => rfl

@[simp] theorem complete_detach (m : ConstraintMap) (id : NodeId) : (m.detach id).complete=m.complete := by
  unfold detach
  split
  · rfl
  · dsimp only
    split
    · rfl
    · split <;> rfl

@[simp] theorem byNode_detach (m : ConstraintMap) (id n : NodeId) :
    (m.detach id).byNode.lookup n=if n=id then none else m.byNode.lookup n := by
  have herase : (m.byNode.erase id).lookup n=if n=id then none else m.byNode.lookup n := by
    split
    · next h => rw [h,lookup_erase]
    · next h => exact lookup_erase_ne h
  unfold detach
  split
  · next hn =>
    split
    · next h => rw [h,hn]
    · rfl
  · dsimp only
    split
    · exact herase
    · split <;> exact herase

theorem WF.holdersOf_detach (h : m.WF) : (m.detach id).holdersOf k=(m.holdersOf k).erase id := by
  have hsame : m.byNode.lookup id≠some k → m.holdersOf k=(m.holdersOf k).erase id := fun hne =>
    (List.erase_of_not_mem (h.not_mem hne)).symm
  unfold detach
  split
  · next hn => exact hsame (by simp [hn])
  next old hold =>
  by_cases hk : k=old
  · subst hk
    split
    · next hl => simp [holdersOf,hl]
    · next ids hl =>
      split
      · next he => simp [holdersOf,hl,he]
      · simp [holdersOf,hl]
  · have hne := hsame (by simp [hold,Ne.symm hk])
    split
    · exact hne
    · split
      · rwa [holdersOf,lookup_erase_ne hk]
      · rwa [holdersOf,lookup_insert_ne hk]

theorem WF.detach (h : m.WF) (id : NodeId) : (m.detach id).WF where
  mem_holdersOf k n := by
    rw [h.holdersOf_detach,(h.nodup k).mem_erase_iff,h.mem_holdersOf,byNode_detach]
    by_cases hn : n=id <;> simp
  nodup k := by
    rw [h.holdersOf_detach]
    exact (h.nodup k).erase id
  nonempty k ids := by
    unfold ConstraintMap.detach
    split
    · exact h.nonempty k ids
    next old _ =>
    split
    · exact h.nonempty k ids
    · split
      · intro hl
        by_cases hk : k=old
        · rw [hk,lookup_erase] at hl
          cases hl
        · exact h.nonempty k ids (by rwa [lookup_erase_ne hk] at hl)
      · next hne =>
        intro hl
        by_cases hk : k=old
        · subst hk
          rw [lookup_insert] at hl
          simpa [← some.inj hl] using hne
        · exact h.nonempty k ids (by rwa [lookup_insert_ne hk] at hl)

theorem WF.mem_knownMisses_detach (h : m.WF) : k∈(m.detach id).knownMisses ↔
    k∈m.knownMisses ∨ m.complete=false ∧ m.byNode.lookup id=some k ∧ ∀ n, n≠id → m.byNode.lookup n≠some k := by
  unfold ConstraintMap.detach
  split
  · next hn => simp [hn]
  next old hold =>
  have hmem : id∈m.holdersOf old := (h.mem_holdersOf old id).mpr hold
  split
  · next hl => simp [holdersOf,hl] at hmem
  next ids hl =>
  have hids : m.holdersOf old=ids := by simp [holdersOf,hl]
  -- whether another node holds the key is whether the erased list is empty
  have hlast : ids.erase id=[] ↔ ∀ n, n≠id → m.byNode.lookup n≠some old := by
    rw [List.eq_nil_iff_forall_not_mem,← hids]
    simp [(h.nodup old).mem_erase_iff,h.mem_holdersOf]
  split
  · next he =>
    have := hlast.mp he
    cases hc : m.complete
    · simp only [Bool.false_eq_true,if_false,List.mem_insert_iff,hold,some.injEq,true_and]
      constructor
      · rintro (rfl | hk)
        · exact .inr ⟨rfl,this⟩
        · exact .inl hk
      · rintro (hk | ⟨rfl,-⟩)
        · exact .inr hk
        · exact .inl rfl
    · simp
  · next hne =>
    constructor
    · exact .inl
    · rintro (hk | ⟨-,hko,hall⟩)
      · exact hk
      · rw [hold,some.injEq] at hko
        subst hko
        exact absurd (hlast.mpr hall) (by simpa using hne)

@[simp] theorem complete_file (m : ConstraintMap) (id : NodeId) (key : UniqueKey) :
    (m.file id key).complete=m.complete := rfl

@[simp] theorem byNode_file (m : ConstraintMap) (id n : NodeId) (key : UniqueKey) :
    (m.file id key).byNode.lookup n=if n=id then some key else m.byNode.lookup n := by
  show (m.byNode.insert id key).lookup n = _
  by_cases hn : n=id
  · rw [if_pos hn,hn,lookup_insert]
  · rw [if_neg hn,lookup_insert_ne hn]

theorem holdersOf_file (m : ConstraintMap) (id : NodeId) (key k : UniqueKey) :
    (m.file id key).holdersOf k=if k=key then (m.holdersOf k).insert id else m.holdersOf k := by
  unfold file holdersOf
  by_cases hk : k=key
  · subst hk
    cases hl : m.holders.lookup k <;> simp
  · simp [hk]

@[simp] theorem mem_knownMisses_file : k∈(m.file id key).knownMisses ↔ k∈m.knownMisses ∧ k≠key := by
  simp [file]

theorem WF.file (h : m.WF) (hid : m.byNode.lookup id=none) (key : UniqueKey) : (m.file id key).WF where
  mem_holdersOf k n := by
    rw [holdersOf_file,byNode_file]
    by_cases hk : k=key
    · subst hk
      by_cases hn : n=id <;> simp [hn,h.mem_holdersOf]
    · by_cases hn : n=id
      · simp [hk,Ne.symm hk,hn,h.mem_holdersOf,hid]
      · simp [hk,hn,h.mem_holdersOf]
  nodup k := by
    rw [holdersOf_file]
    split
    · exact (h.nodup k).insert
    · exact h.nodup k
  nonempty k ids hl := by
    unfold ConstraintMap.file at hl
    by_cases hk : k=key
    · subst hk
      rw [lookup_insert] at hl
      rw [← some.inj hl]
      split
      · simp
      · exact List.ne_nil_of_mem List.mem_insert_self
    · exact h.nonempty k ids (by rwa [lookup_insert_ne hk] at hl)

@[simp] theorem byNode_rehome (m : ConstraintMap) (id n : NodeId) (key : Option UniqueKey) :
    (m.rehome id key).byNode.lookup n=if n=id then key else m.byNode.lookup n := by
  cases key with
  | none => exact byNode_detach m id n
  | some key =>
    rw [rehome,byNode_file,byNode_detach]
    split <;> rfl

theorem WF.rehome (h : m.WF) (id : NodeId) (key : Option UniqueKey) : (m.rehome id key).WF := by
  cases key with
  | none => exact h.detach id
  | some key => exact (h.detach id).file (by simp) key

theorem WF.with_misses (h : m.WF) (ks : List UniqueKey) : WF { m with knownMisses := ks } :=
  ⟨h.mem_holdersOf,h.nonempty,h.nodup⟩

end ConstraintMap

/-- A map as functions. The misses of a complete map do not count. -/
@[ext]
structure View where
  complete : Bool
  byNode : NodeId → Option UniqueKey
  misses : UniqueKey → Prop

namespace View

def Knows (v : View) (k : UniqueKey) : Prop :=
  v.complete=true ∨ (∃ n, v.byNode n=some k) ∨ v.misses k

def rehome (v : View) (id : NodeId) (key : Option UniqueKey) : View where
  complete := v.complete
  byNode := Function.update v.byNode id key
  misses k := key≠some k ∧
    (v.misses k ∨ v.complete=false ∧ v.byNode id=some k ∧ ∀ n, n≠id → v.byNode n≠some k)

def addMiss (v : View) (k : UniqueKey) : View :=
  { v with misses := fun k' => v.misses k' ∨ v.complete=false ∧ k'=k }

def undo (v : View) (u : ConstraintUndo) : View where
  complete := v.complete
  byNode n := (u.byNode.lookup n).getD (v.byNode n)
  misses k := v.complete=false ∧ match u.knownMisses.lookup k with
    | some was => was=true
    | none => v.misses k

end View

def ConstraintMap.view (m : ConstraintMap) : View where
  complete := m.complete
  byNode n := m.byNode.lookup n
  misses k := m.complete=false ∧ k∈m.knownMisses

namespace ConstraintMap

variable {m : ConstraintMap} {id n : NodeId} {key k : UniqueKey}

theorem WF.view_rehome (h : m.WF) (id : NodeId) (key : Option UniqueKey) :
    (m.rehome id key).view=m.view.rehome id key := by
  cases key with
  | none =>
    ext k
    · simp [view,View.rehome,ConstraintMap.rehome]
    · by_cases hk : k=id <;> simp [view,View.rehome,hk]
    · simp only [view,View.rehome,ConstraintMap.rehome,complete_detach,h.mem_knownMisses_detach]
      tauto
  | some key =>
    ext k
    · simp [view,View.rehome,ConstraintMap.rehome]
    · by_cases hk : k=id <;> simp [view,View.rehome,hk]
    · simp only [view,View.rehome,ConstraintMap.rehome,mem_knownMisses_file,h.mem_knownMisses_detach,
        complete_file,complete_detach,ne_eq,some.injEq,eq_comm (a := k)]
      tauto

theorem view_addMiss (m : ConstraintMap) (k : UniqueKey) : (m.addMiss k).view=m.view.addMiss k := by
  ext k'
  · rfl
  · rfl
  · simp only [view,View.addMiss,addMiss,List.mem_insert_iff]
    tauto

theorem WF.answers_iff (h : m.WF) : m.answers k=true ↔ m.view.Knows k := by
  simp only [answers,Bool.or_eq_true,View.Knows,h.isSome_holders,view]
  cases m.complete <;> simp

end ConstraintMap
end NamiDB.Storage
