import NamiDB.Storage.UniqueIndexUndo

/-! One constraint of the index: its map, its journal entries, and what they have to be exact for. -/
namespace NamiDB.Storage
open Lib Option Function IndexState

/-- The map answers only what is so when each node `n` carries the tuple `key n`. -/
structure View.Exact (key : NodeId → Option UniqueKey) (v : View) : Prop where
  agrees : ∀ k, v.Knows k → ∀ n, v.byNode n=some k ↔ key n=some k
  missed : ∀ k, v.misses k → ∀ n, v.byNode n≠some k

namespace View.Exact

variable {key : NodeId → Option UniqueKey} {v : View} {id : NodeId} {k : UniqueKey} {new : Option UniqueKey}

theorem key_of_byNode (h : v.Exact key) (hn : v.byNode n=some k) : key n=some k :=
  (h.agrees k (.inr (.inl ⟨n,hn⟩)) n).mp hn

/-- A node may move to a key that a partial map does not know only if no other node carries that key. -/
theorem rehome (h : v.Exact key) (hnew : ∀ k, new=some k → v.Knows k ∨ ∀ n, n≠id → key n≠some k) :
    (v.rehome id new).Exact (Function.update key id new) where
  missed k hk n hn := by
    by_cases hid : n=id
    · subst hid
      exact hk.1 (by simpa [View.rehome] using hn)
    · have hn : v.byNode n=some k := by simpa [View.rehome,hid] using hn
      obtain ⟨-,hmiss | ⟨-,-,hall⟩⟩ := hk
      · exact h.missed k hmiss n hn
      · exact hall n hid hn
  agrees k hk n := by
    by_cases hid : n=id
    · subst hid
      simp [View.rehome]
    simp only [View.rehome,update_of_ne hid]
    have hknown : v.Knows k ∨ ∀ n, n≠id → key n≠some k := by
      obtain hc | ⟨n',hn'⟩ | ⟨-,hmiss | ⟨-,hold,-⟩⟩ := hk
      · exact .inl (.inl hc)
      · by_cases hid' : n'=id
        · subst hid'
          exact hnew k (by simpa [View.rehome] using hn')
        · exact .inl (.inr (.inl ⟨n',by simpa [View.rehome,hid'] using hn'⟩))
      · exact .inl (.inr (.inr hmiss))
      · exact .inl (.inr (.inl ⟨id,hold⟩))
    obtain hk | hnone := hknown
    · exact h.agrees k hk n
    · exact ⟨fun hn => h.key_of_byNode hn,fun hn => absurd hn (hnone n hid)⟩

theorem seedHit (h : v.Exact key) (hid : ∀ n, key n=some k ↔ n=id) : (v.rehome id (some k)).Exact key := by
  have hsame : update key id (some k)=key := by
    rw [update_eq_self_iff]
    exact ((hid id).mpr rfl).symm
  rw [← hsame]
  refine h.rehome fun k' hk' => .inr fun n hn hcon => ?_
  rw [← hk'] at hcon
  exact hn ((hid n).mp hcon)

theorem seedMiss (h : v.Exact key) (hk : ∀ n, key n≠some k) : (v.addMiss k).Exact key where
  missed k' hk' n hn := by
    obtain hmiss | ⟨-,rfl⟩ := hk'
    · exact h.missed k' hmiss n hn
    · exact hk n (h.key_of_byNode hn)
  agrees k' hk' n := by
    obtain hc | hn | hmiss | ⟨-,rfl⟩ := hk'
    · exact h.agrees k' (.inl hc) n
    · exact h.agrees k' (.inr (.inl hn)) n
    · exact h.agrees k' (.inr (.inr hmiss)) n
    · exact ⟨fun hn => h.key_of_byNode hn,fun hn => absurd hn (hk n)⟩

theorem full (hb : v.byNode=key) (hm : ∀ k, ¬v.misses k) : v.Exact key :=
  ⟨fun _ _ n => by rw [hb],fun k hk => absurd hk (hm k)⟩

theorem empty (key : NodeId → Option UniqueKey) : ConstraintMap.empty.view.Exact key where
  missed k hk := by simp [ConstraintMap.view,ConstraintMap.empty] at hk
  agrees k hk := by simp [View.Knows,ConstraintMap.view,ConstraintMap.empty] at hk

end View.Exact

/-- What a rollback leaves of a map. -/
def undoView (u : Option ConstraintUndo) (v : Option View) : Option View :=
  match u with
  | none => v
  | some u => if u.createdInBatch then none else v.map (·.undo u)

/-- The journal entry covers the map and takes it back to one that is exact for `key`. -/
structure Layer (key : NodeId → Option UniqueKey) (u : Option ConstraintUndo) (v : Option View) : Prop where
  covers : ∀ w ∈ u, w.createdInBatch=false → ∀ x ∈ v, w.Covers x
  exact : ∀ x ∈ undoView u v, x.Exact key

theorem Layer.of_none (key : NodeId → Option UniqueKey) (u : Option ConstraintUndo) : Layer key u none :=
  ⟨by simp,by cases u <;> simp [undoView]⟩

variable {key : NodeId → Option UniqueKey}

theorem Layer.no_entry (h : ∀ x ∈ v, x.Exact key) : Layer key none v :=
  ⟨by simp,h⟩

/-- The batch's entry, under the request's one while a request is open. -/
def Layers (committed : NodeId → Option UniqueKey) (undo : Option ConstraintUndo) (v : Option View) :
    Option (NodeId → Option UniqueKey) → Option (Option ConstraintUndo) → Prop
  | none, none => Layer committed undo v
  | some mark, some request => Layer mark request v ∧ Layer committed undo (undoView request v)
  | _, _ => False

/-- A pair of map and entry that goes back to what `u` and `v` go back to, or to nothing. -/
structure Back (u : Option ConstraintUndo) (v : Option View) (u' : ConstraintUndo) (v' : Option View) : Prop where
  undo : undoView (some u') v'=none ∨ undoView (some u') v'=undoView u v
  covers : u'.createdInBatch=false → ∀ x ∈ v', u'.Covers x

variable {u' : ConstraintUndo} {v v' : Option View}

theorem Layer.back {u : Option ConstraintUndo} (h : Layer key u v) (hb : Back u v u' v') : Layer key (some u') v' where
  covers w hw := by
    cases hw
    exact hb.covers
  exact x hx := by
    obtain hnone | hsame := hb.undo
    · simp [hnone] at hx
    · exact h.exact x (hsame ▸ hx)

/-- Journaled maintenance writes the topmost entry only. -/
theorem Layers.back {undo : Option ConstraintUndo} (h : Layers committed undo v mark request)
    (hb : Back (request.getD undo) v u' v') :
    Layers committed (if request.isSome then undo else some u') v' mark (request.map fun _ => some u') := by
  match mark, request, h with
  | none, none, h => exact Layer.back h hb
  | some mark, some request, ⟨hr,hu⟩ =>
    refine ⟨hr.back hb,?_⟩
    obtain hnone | hsame := hb.undo
    · rw [hnone]
      exact Layer.of_none committed _
    · rw [hsame]
      exact hu

section

variable {u : ConstraintUndo} {m : ConstraintMap} {id : NodeId} {k : UniqueKey} {new : Option UniqueKey}

theorem Back.created {u : Option ConstraintUndo} (h : u'.createdInBatch=true) (v' : Option View) : Back u v u' v' :=
  ⟨.inl (by simp [undoView,h]),by simp [h]⟩

theorem Back.trans {u : Option ConstraintUndo} (h : Back u v u' v') (h' : Back (some u') v' u'' v'') :
    Back u v u'' v'' := by
  refine ⟨?_,h'.covers⟩
  obtain hn | hs := h'.undo
  · exact .inl hn
  · rw [hs]
    exact h.undo

theorem Back.default {u : Option ConstraintUndo} (h : ∀ w ∈ u, w.createdInBatch=false → w.Covers m.view) :
    Back u (some m.view) (u.getD .empty) (some m.view) := by
  cases u with
  | none =>
    refine ⟨.inr ?_,fun _ x _ => ConstraintUndo.covers_empty x⟩
    have hmisses : ∀ k, m.view.misses k → m.view.complete=false := fun k hk => hk.1
    exact congrArg some (ConstraintUndo.undo_empty m.view hmisses)
  | some u =>
    refine ⟨.inr rfl,fun hu x hx => ?_⟩
    cases hx
    exact h u rfl hu

theorem Back.touch (hc : u.createdInBatch=false → u.Covers m.view) :
    Back (some u) (some m.view) (u.touch m id new) (some (m.view.rehome id new)) := by
  cases hu : u.createdInBatch with
  | true => exact .created (by simpa using hu) _
  | false =>
    refine ⟨.inr (by simp [undoView,ConstraintUndo.undo_touch hu]),fun _ x hx => ?_⟩
    cases hx
    exact (hc hu).touch hu

theorem Back.noteMiss (hm : m.complete=false) (hc : u.createdInBatch=false → u.Covers m.view) :
    Back (some u) (some m.view) (if u.createdInBatch then u else u.noteMiss m k) (some (m.view.addMiss k)) := by
  cases hu : u.createdInBatch with
  | true => exact .created (by simpa using hu) _
  | false =>
    have hcreated : (u.noteMiss m k).createdInBatch=false := hu
    refine ⟨.inr ?_,fun _ x hx => ?_⟩
    · simp [undoView,hu,hcreated,ConstraintUndo.undo_noteMiss hm]
    · cases hx
      exact (hc hu).noteMiss

end

/-- What the index keeps for one constraint. -/
@[ext]
structure Slot where
  map : Option ConstraintMap
  undo : Option ConstraintUndo
  request : Option (Option ConstraintUndo)

namespace Slot

def journal (s : Slot) : Option ConstraintUndo := s.request.getD s.undo

def view (s : Slot) : Option View := s.map.map ConstraintMap.view

def write (s : Slot) (m : ConstraintMap) (u : ConstraintUndo) : Slot where
  map := some m
  undo := if s.request.isSome then s.undo else some u
  request := s.request.map fun _ => some u

/-- Exact now, and exact again after either rollback. -/
structure Good (now committed : NodeId → Option UniqueKey) (mark : Option (NodeId → Option UniqueKey)) (s : Slot) :
    Prop where
  wf : ∀ m ∈ s.map, m.WF
  now : ∀ m ∈ s.map, m.view.Exact now
  layers : Layers committed s.undo s.view mark s.request

variable {now committed : NodeId → Option UniqueKey} {mark : Option (NodeId → Option UniqueKey)} {s : Slot}

theorem Good.covers (h : s.Good now committed mark) : ∀ w ∈ s.journal, w.createdInBatch=false →
    ∀ m ∈ s.map, w.Covers m.view := by
  intro w hw hcreated m hm
  have hv : m.view∈s.view := mem_map_of_mem _ hm
  have hl := h.layers
  obtain ⟨map,undo,request⟩ := s
  match mark, request, hl with
  | none, none, hl => exact Layer.covers hl w hw hcreated _ hv
  | some _, some _, hl => exact hl.1.covers w hw hcreated _ hv

theorem Good.write (h : s.Good now committed mark) {now' : NodeId → Option UniqueKey} {m : ConstraintMap}
    {u : ConstraintUndo} (hm : m.WF) (hnow : m.view.Exact now') (hb : Back s.journal s.view u (some m.view)) :
    (s.write m u).Good now' committed mark where
  wf m' hm' := by cases hm'; exact hm
  now m' hm' := by cases hm'; exact hnow
  layers := h.layers.back hb

theorem Good.of_clean {request : Option (Option ConstraintUndo)} {map : Option ConstraintMap}
    (hwf : ∀ m ∈ map, m.WF) (hnow : ∀ m ∈ map, m.view.Exact now)
    (hmark : ∀ k ∈ mark, k=now) (hreq : ∀ r ∈ request, r=none) (hopen : mark.isSome=request.isSome) :
    Good now now mark ⟨map,none,request⟩ := by
  have hv : ∀ x ∈ map.map ConstraintMap.view, x.Exact now := by
    rintro x hx
    obtain ⟨m,hm,rfl⟩ := map_eq_some_iff.mp hx
    exact hnow m hm
  refine ⟨hwf,hnow,?_⟩
  match mark, request, hopen with
  | none, none, _ => exact .no_entry hv
  | some k, some r, _ =>
    obtain rfl := hmark k rfl
    obtain rfl := hreq r rfl
    exact ⟨.no_entry hv,.no_entry hv⟩

def touch (s : Slot) (id : NodeId) (new : Option UniqueKey) : Slot :=
  match s.map with
  | none => s
  | some m => s.write (m.rehome id new) ((s.journal.getD .empty).touch m id new)

theorem Good.touch (h : s.Good now committed mark) {id : NodeId} {new : Option UniqueKey}
    (hnew : ∀ m ∈ s.map, ∀ k, new=some k → m.view.Knows k ∨ ∀ n, n≠id → now n≠some k) :
    (s.touch id new).Good (Function.update now id new) committed mark := by
  obtain ⟨map,undo,request⟩ := s
  cases map with
  | none => exact ⟨by simp [Slot.touch],by simp [Slot.touch],h.layers⟩
  | some m =>
    have hwf := h.wf m rfl
    have hdefault := Back.default fun w hw hcreated => h.covers w hw hcreated m rfl
    have hview := hwf.view_rehome id new
    refine h.write (hwf.rehome id new) ?_ ?_
    · rw [hview]
      exact (h.now m rfl).rehome (hnew m rfl)
    · rw [hview]
      exact hdefault.trans (.touch fun hu => hdefault.covers hu _ rfl)

section

variable {m : ConstraintMap}
variable {seed : IndexState.Seed} {seeds : List IndexState.Seed} {k : UniqueKey}

/-- A seed that says who carries its key. -/
def Authoritative (now : NodeId → Option UniqueKey) (seed : IndexState.Seed) : Prop :=
  ∀ n, now n=some seed.1 ↔ seed.2=some n

/-- What the seeding loops keep of a partial map. -/
structure Partial (now : NodeId → Option UniqueKey) (m : ConstraintMap) : Prop where
  wf : m.WF
  complete : m.complete=false
  exact : m.view.Exact now

section
variable (h : Partial now m)
include h

theorem Partial.hit {id : NodeId} (hk : ∀ n, now n=some k ↔ some id=some n) : Partial now (m.rehome id (some k)) where
  wf := h.wf.rehome id (some k)
  complete := by
    rw [← h.complete]
    exact congrArg View.complete (h.wf.view_rehome id (some k))
  exact := by
    rw [h.wf.view_rehome]
    exact h.exact.seedHit fun n => (hk n).trans (by simp [eq_comm])

theorem Partial.miss (hk : ∀ n, now n≠some k) : Partial now (m.addMiss k) where
  wf := h.wf.with_misses _
  complete := h.complete
  exact := by
    rw [ConstraintMap.view_addMiss]
    exact h.exact.seedMiss hk

theorem Partial.seedCommitted (hs : Authoritative now seed) : Partial now (IndexState.seedCommitted m seed) := by
  obtain ⟨k,holder⟩ := seed
  unfold seedCommitted
  split
  · exact h
  · cases holder with
    | none => exact h.miss fun n hn => by simpa using (hs n).mp hn
    | some id => exact h.hit hs

theorem Partial.seedStaged {u : ConstraintUndo} (hb : Back u0 v0 u (some m.view)) (hs : Authoritative now seed) :
    Partial now (IndexState.seedStaged (m,u) seed).1 ∧
      Back u0 v0 (IndexState.seedStaged (m,u) seed).2 (some (IndexState.seedStaged (m,u) seed).1.view) := by
  obtain ⟨k,holder⟩ := seed
  have hcovers := fun hu => hb.covers hu m.view rfl
  unfold seedStaged
  dsimp only
  split
  · exact ⟨h,hb⟩
  · cases holder with
    | none =>
      refine ⟨h.miss fun n hn => by simpa using (hs n).mp hn,?_⟩
      rw [ConstraintMap.view_addMiss]
      exact hb.trans (.noteMiss h.complete hcovers)
    | some id =>
      refine ⟨h.hit hs,?_⟩
      rw [h.wf.view_rehome]
      exact hb.trans (.touch hcovers)

theorem Partial.seedCommittedAll (hs : ∀ seed ∈ seeds, Authoritative now seed) :
    Partial now (seeds.foldl IndexState.seedCommitted m) := by
  induction seeds generalizing m with
  | nil => exact h
  | cons seed seeds ih =>
    exact ih (h.seedCommitted (hs seed (.head _))) fun s hm => hs s (.tail _ hm)

end

theorem Partial.seedStagedAll {s : ConstraintMap × ConstraintUndo}
    (h : Partial now s.1) (hb : Back u0 v0 s.2 (some s.1.view)) (hs : ∀ seed ∈ seeds, Authoritative now seed) :
    Partial now (seeds.foldl IndexState.seedStaged s).1 ∧ Back u0 v0 (seeds.foldl IndexState.seedStaged s).2
      (some (seeds.foldl IndexState.seedStaged s).1.view) := by
  induction seeds generalizing s with
  | nil => exact ⟨h,hb⟩
  | cons seed seeds ih =>
    obtain ⟨h',hb'⟩ := h.seedStaged hb (hs seed (.head _))
    exact ih h' hb' fun s hm => hs s (.tail _ hm)

end

section

variable {u : Option ConstraintUndo} {m : Option ConstraintMap} {key : NodeId → Option UniqueKey}

def undone (u : Option ConstraintUndo) (m : Option ConstraintMap) : Option ConstraintMap :=
  match u with
  | none => m
  | some u => if u.createdInBatch then none else m.map (IndexState.restoreMap u)

theorem wf_undone (h : ∀ x ∈ m, x.WF) : ∀ x ∈ undone u m, x.WF := by
  cases u with
  | none => exact h
  | some u =>
    unfold undone
    dsimp only
    split
    · simp
    · rintro x hx
      obtain ⟨y,hy,rfl⟩ := map_eq_some_iff.mp hx
      exact wf_restoreMap (h y hy)

theorem view_undone (h : ∀ x ∈ m, x.WF) (hl : Layer key u (m.map ConstraintMap.view)) :
    (undone u m).map ConstraintMap.view=undoView u (m.map ConstraintMap.view) := by
  cases u with
  | none => rfl
  | some u =>
    cases hu : u.createdInBatch with
    | true => simp [undone,undoView,hu]
    | false =>
      cases m with
      | none => simp [undone,undoView,hu]
      | some m =>
        simp [undone,undoView,hu,view_restoreMap (h m rfl) (hl.covers u rfl hu _ rfl)]

theorem exact_undone (h : ∀ x ∈ m, x.WF) (hl : Layer key u (m.map ConstraintMap.view)) :
    ∀ x ∈ undone u m, x.view.Exact key := fun x hx =>
  hl.exact x.view (view_undone h hl ▸ mem_map_of_mem _ hx)

def merged (undo request : Option ConstraintUndo) : Option ConstraintUndo :=
  match request with
  | none => undo
  | some request => some (match undo with
    | none => request
    | some batch => batch.mergeFrom request)

/-- An older entry may stay on top of a later one unless the later one says that the map is new. -/
theorem Layer.merge {key mark : NodeId → Option UniqueKey} {undo request : Option ConstraintUndo}
    (hr : Layer mark request v) (hu : Layer key undo (undoView request v))
    (hnew : ∀ r ∈ request, r.createdInBatch=true → ∀ b ∈ undo, b.createdInBatch=true) :
    Layer key (merged undo request) v := by
  match undo, request with
  | _, none => exact hu
  | none, some request => exact ⟨hr.covers,hu.exact⟩
  | some batch, some request =>
    cases hb : batch.createdInBatch with
    | true =>
      have hcreated : (batch.mergeFrom request).createdInBatch=true := hb
      exact ⟨fun w hw => by cases hw; simp [hcreated],by simp [merged,undoView,hcreated]⟩
    | false =>
      have hcreated : (batch.mergeFrom request).createdInBatch=false := hb
      have hrequest : request.createdInBatch=false := by
        by_contra hcon
        exact absurd (hnew request rfl (by simpa using hcon) batch rfl) (by simp [hb])
      have hundo : ∀ x, x∈v → x.undo request∈undoView (some request) v := fun x hx => by
        simp only [undoView,hrequest]
        exact mem_map_of_mem _ hx
      constructor
      · rintro w hw - x hx
        cases hw
        exact (hr.covers request rfl hrequest x hx).mergeFrom (hu.covers batch rfl hb _ (hundo x hx))
      · have hexact := hu.exact
        simp only [merged,undoView,hrequest,hb,hcreated,Bool.false_eq_true,if_false,map_map] at hexact ⊢
        simpa only [comp_def,ConstraintUndo.undo_mergeFrom] using hexact

end
end Slot
end NamiDB.Storage
