import NamiDB.Storage.UniqueIndexScan

/-! A writer session that stages node mutations and keeps its index, over whole runs. -/
namespace NamiDB.Storage
open Lib Option IndexState AList

/-- The session's share: `staged` says that the pending batch holds a node mutation, and `mark` is what the open
request goes back to. -/
structure UniqueWriter where
  index : IndexState
  overlay : Overlay
  staged : Bool
  committed : Overlay
  mark : Option (Overlay × Bool)

namespace UniqueWriter

inductive Act where
  | populate (label : String) (names : List String)
  | populateStaged (label : String) (names : List String)
  | seedCommittedKeys (label : String) (names : List String) (entries : List Seed)
  | seedStagedKeys (label : String) (names : List String) (entries : List Seed)
  | applyUpsert (id : NodeId) (record : NodeRecord)
  | applyTombstone (id : NodeId)
  | beginRequest
  | mergeRequest
  | rollbackRequest
  | commitStaged
  | rollbackStaged

def new (committed : Overlay) : UniqueWriter := ⟨.new,committed,false,committed,none⟩

def step (w : UniqueWriter) : Act → UniqueWriter
  | .populate label names => { w with index := w.index.populate label names (w.overlay.scanLabel label) }
  | .populateStaged label names =>
    { w with index := w.index.populateStaged label names (w.overlay.scanLabel label) }
  | .seedCommittedKeys label names entries =>
    { w with index := w.index.seedCommittedKeys label names entries }
  | .seedStagedKeys label names entries => { w with index := w.index.seedStagedKeys label names entries }
  | .applyUpsert id record =>
    { w with
      index := w.index.applyUpsert id record.labels record.props
      overlay := w.overlay.insert id record
      staged := true }
  | .applyTombstone id =>
    { w with index := w.index.applyTombstone id, overlay := w.overlay.erase id, staged := true }
  | .beginRequest => { w with index := w.index.beginRequest, mark := some (w.overlay,w.staged) }
  | .mergeRequest => { w with index := w.index.mergeRequest, mark := none }
  | .rollbackRequest =>
    let (overlay,staged) := w.mark.getD (w.overlay,w.staged)
    { w with index := w.index.rollbackRequest, overlay, staged, mark := none }
  | .commitStaged =>
    { w with index := w.index.commitStaged, staged := false, committed := w.overlay, mark := none }
  | .rollbackStaged =>
    { w with index := w.index.rollbackStaged, overlay := w.committed, staged := false, mark := none }

def holders (w : UniqueWriter) (identity : ConstraintId) (key : UniqueKey) : List NodeId :=
  w.overlay.keys.filter fun n => w.overlay.keyAt identity n=some key

/-- The seeds are what a lookup in the overlay finds: for each key one of its holders, or that there is none. -/
def authoritative (w : UniqueWriter) (identity : ConstraintId) (entries : List Seed) : Bool :=
  entries.all fun seed => seed.2.elim (w.holders identity seed.1).isEmpty (w.holders identity seed.1).contains

/-- The callers' rule: the committed variants run before a node mutation is staged and the staged ones after,
seeds are looked up, and requests do not nest. -/
def allowed (w : UniqueWriter) : Act → Bool
  | .populate _ _ => !w.staged
  | .populateStaged _ _ => w.staged
  | .seedCommittedKeys label names entries => !w.staged&&w.authoritative (label,names) entries
  | .seedStagedKeys label names entries => w.staged&&w.authoritative (label,names) entries
  | .beginRequest => w.mark.isNone
  | _ => true

/-- An upsert files a key only where a map answers for it already or no other node carries it, no key that is
seeded has two holders, and a request is not merged over an older journal entry when it made the map anew. -/
def careful (w : UniqueWriter) : Act → Bool
  | .seedCommittedKeys label names entries | .seedStagedKeys label names entries =>
    ((w.index.maps.lookup (label,names)).getD .empty).complete||entries.all fun seed =>
      decide ((w.holders (label,names) seed.1).length ≤ 1)
  | .applyUpsert id record => w.index.maps.entries.all fun e =>
    match recordKey record.labels record.props e.1 with
    | none => true
    | some key => e.2.answers key||w.overlay.keys.all fun n =>
      decide (n=id ∨ w.overlay.keyAt e.1 n≠some key)
  | .mergeRequest =>
    match w.index.requestUndo with
    | none => true
    | some request => request.entries.all fun e => !e.2.createdInBatch ||
      ((w.index.undo.lookup e.1).map (·.createdInBatch)).getD true
  | _ => true

/-- A run in which every act passes `ok`. -/
def run (ok : UniqueWriter → Act → Bool) (w : UniqueWriter) : List Act → Option UniqueWriter
  | [] => some w
  | act::acts => if ok w act then run ok (w.step act) acts else none

end UniqueWriter

namespace IndexState

variable {s : IndexState} {c : ConstraintId}

def slot (s : IndexState) (c : ConstraintId) : Slot :=
  ⟨s.maps.lookup c,s.undo.lookup c,s.requestUndo.map fun request => request.lookup c⟩

variable (s : IndexState)

@[simp] theorem lookup_journal (c : ConstraintId) : s.journal.lookup c=(s.slot c).journal := by
  unfold journal Slot.journal slot
  cases s.requestUndo <;> rfl

theorem slot_write (m : ConstraintMap) (u : ConstraintUndo) (a : ConstraintId) :
    ({ s with maps := s.maps.insert c m }.setJournal (s.journal.insert c u)).slot a =
      if a=c then (s.slot c).write m u else s.slot a := by
  obtain ⟨maps,undo,request⟩ := s
  by_cases ha : a=c
  · subst ha
    cases request <;> simp [setJournal,slot,Slot.write]
  · cases request <;> simp [setJournal,slot,journal,ha]

theorem slot_populate_same (label : String) (names : List String)
    (entries : List (NodeId × Properties)) : (s.populate label names entries).slot (label,names) =
      ⟨some { entries.foldl (fileEntry names) .empty with complete := true },none,
        (s.slot (label,names)).request.map fun _ => none⟩ := by
  obtain ⟨maps,undo,request⟩ := s
  cases request <;> simp [populate,populateInner,slot]

theorem slot_populate_ne (entries : List (NodeId × Properties)) (h : a≠(label,names)) :
    (s.populate label names entries).slot a=s.slot a := by
  obtain ⟨maps,undo,request⟩ := s
  cases request <;> simp [populate,populateInner,slot,lookup_erase_ne h,lookup_insert_ne h]

theorem slot_touchMaps (id : NodeId) (new : ConstraintId → Option UniqueKey) :
    (s.touchMaps id new).slot c=(s.slot c).touch id (new c) := by
  have hfold := foldl_view (touchMap new id) slot (fun c slot => slot.touch id (new c))
    (fun s c a ha => by
      unfold touchMap
      split
      · rfl
      · exact (slot_write s _ _ a).trans (if_neg ha))
    (fun s c => by
      unfold touchMap Slot.touch
      split
      · next hn => simp [slot,hn]
      · next m hm => rw [slot_write,if_pos rfl,lookup_journal,show (s.slot c).map=some m from hm])
    s.maps.keys_nodup s c
  rw [touchMaps,hfold]
  split
  · rfl
  · next hc =>
    have hnone : s.maps.lookup c=none := lookup_eq_none.mpr hc
    simp [Slot.touch,slot,hnone]

theorem lookup_restore (maps : AList fun _ : ConstraintId => ConstraintMap) (undo : Journal) (c : ConstraintId) :
    (restore maps undo).lookup c=Slot.undone (undo.lookup c) (maps.lookup c) := by
  rw [restore,foldl_entries_view restoreEntry (fun maps c => maps.lookup c) (fun _ u m => Slot.undone (some u) m)
    (fun maps e a ha => by
      unfold restoreEntry
      split
      · exact lookup_erase_ne ha
      · split
        · rfl
        · exact lookup_insert_ne ha) (fun maps e => by
      unfold restoreEntry Slot.undone
      dsimp only
      split
      · exact lookup_erase _ _
      · split
        · next hn => rw [hn]; rfl
        · next m hm => rw [hm,lookup_insert]; rfl)]
  cases undo.lookup c <;> rfl

theorem lookup_mergeEntries (undo request : Journal) (c : ConstraintId) :
    (request.entries.foldl mergeEntry undo).lookup c=Slot.merged (undo.lookup c) (request.lookup c) := by
  rw [foldl_entries_view mergeEntry (fun undo c => undo.lookup c) (fun _ r u => Slot.merged u (some r))
    (fun undo e a ha => by
      unfold mergeEntry
      split <;> exact lookup_insert_ne ha) (fun undo e => by
      cases hb : undo.lookup e.1 <;> simp [mergeEntry,Slot.merged,hb])]
  cases request.lookup c <;> rfl

end IndexState

namespace UniqueWriter

variable {map : ConstraintMap} {index : IndexState} {id : NodeId}

/-- Every constraint is exact now and after either rollback; while no node mutation is staged there is nothing to
roll back. -/
structure Inv (w : UniqueWriter) : Prop where
  good : ∀ c, (w.index.slot c).Good (w.overlay.keyAt c) (w.committed.keyAt c)
    (w.mark.map fun m => m.1.keyAt c)
  clean : w.staged=false → w.overlay=w.committed ∧
    ∀ c, (w.index.slot c).undo=none ∧ ∀ r ∈ (w.index.slot c).request, r=none
  mark : ∀ m ∈ w.mark, (m.2=true → w.staged=true) ∧
    (m.2=false → m.1=w.committed ∧ ∀ c, (w.index.slot c).undo=none)

variable {w : UniqueWriter} {c : ConstraintId}
variable {label : String} {names : List String} {entries : List Seed}

theorem Inv.new (committed : Overlay) : (new committed).Inv where
  good c := .of_clean (by simp [UniqueWriter.new,IndexState.new]) (by simp [UniqueWriter.new,IndexState.new])
    (by simp [UniqueWriter.new]) (by simp [UniqueWriter.new,IndexState.new])
    (by simp [UniqueWriter.new,IndexState.new])
  clean _ := ⟨rfl,fun c => by simp [UniqueWriter.new,IndexState.new,slot]⟩
  mark := by simp [UniqueWriter.new]

theorem Inv.open_eq (h : w.Inv) : w.mark.isSome=w.index.requestUndo.isSome := by
  have hl := (h.good ("",[])).layers
  cases hm : w.mark <;> cases hr : w.index.requestUndo <;>
    simp [hm,hr,slot,Layers] at hl ⊢

/-- With nothing staged the map of one constraint may be replaced by any that is exact for the overlay. -/
theorem Inv.install (h : w.Inv) (hs : w.staged=false) (hwf : map.WF) (hmap : map.view.Exact (w.overlay.keyAt c))
    (hslot : ∀ a, index.slot a=if a=c then { w.index.slot c with map := some map } else w.index.slot a) :
    Inv { w with index } := by
  obtain ⟨hbase,hnone⟩ := h.clean hs
  have hundo : ∀ a, (index.slot a).undo=none ∧ ∀ r ∈ (index.slot a).request, r=none := fun a => by
    rw [hslot a]
    split
    · exact hnone c
    · exact hnone a
  refine ⟨fun a => ?_,fun _ => ⟨hbase,hundo⟩,fun m hm => ⟨(h.mark m hm).1,fun hf => ?_⟩⟩
  · have hgood := hslot a
    split at hgood
    · next ha =>
      subst ha
      have hmark : ∀ k ∈ w.mark.map (fun m => m.1.keyAt a), k=w.overlay.keyAt a := by
        intro k hk
        obtain ⟨m,hm,rfl⟩ := map_eq_some_iff.mp hk
        have hfalse : m.2=false := by
          by_contra hcon
          exact absurd ((h.mark m hm).1 (by simpa using hcon)) (by simp [hs])
        rw [((h.mark m hm).2 hfalse).1,hbase]
      have hclean : Slot.Good (w.overlay.keyAt a) (w.overlay.keyAt a) (w.mark.map fun m => m.1.keyAt a)
          ⟨some map,none,(w.index.slot a).request⟩ :=
        .of_clean (fun m hm => by cases hm; exact hwf) (fun m hm => by cases hm; exact hmap) hmark (hnone a).2
          (by simp [h.open_eq,slot])
      have heq : index.slot a=⟨some map,none,(w.index.slot a).request⟩ := by
        rw [hgood,← (hnone a).1]
      rw [← hbase]
      exact heq ▸ hclean
    · exact hgood ▸ h.good a
  · exact ⟨((h.mark m hm).2 hf).1,fun a => (hundo a).1⟩

theorem Inv.populate (h : w.Inv) (hs : w.staged=false) : (w.step (.populate label names)).Inv := by
  refine h.install (c := (label,names)) hs wf_scannedMap exact_scannedMap fun a => ?_
  obtain ⟨-,hnone⟩ := h.clean hs
  split
  · next ha =>
    subst ha
    obtain ⟨hu,hr⟩ := hnone (label,names)
    have hreq : (w.index.slot (label,names)).request.map (fun _ => none) =
        (w.index.slot (label,names)).request := by
      cases hreq : (w.index.slot (label,names)).request with
      | none => rfl
      | some r => simp [hr r hreq]
    refine (slot_populate_same _ _ _ _).trans ?_
    rw [hreq,← hu]
    rfl
  · next ha => exact slot_populate_ne _ _ ha

theorem Inv.write (h : w.Inv) (hs : w.staged=true) (hwf : map.WF) (hmap : map.view.Exact (w.overlay.keyAt c))
    (hback : Back (w.index.slot c).journal (w.index.slot c).view u (some map.view))
    (hslot : ∀ a, index.slot a=if a=c then (w.index.slot c).write map u else w.index.slot a) :
    Inv { w with index } := by
  refine ⟨fun a => ?_,by simp [hs],fun m hm => ⟨fun _ => hs,fun hf => ?_⟩⟩
  · have hgood := hslot a
    split at hgood
    · next ha =>
      subst ha
      exact hgood ▸ (h.good a).write hwf hmap hback
    · exact hgood ▸ h.good a
  · obtain ⟨hbase,hundo⟩ := (h.mark m hm).2 hf
    have hopen : w.index.requestUndo.isSome=true := by
      rw [← h.open_eq]
      exact isSome_of_mem hm
    refine ⟨hbase,fun a => ?_⟩
    rw [hslot a]
    split
    · next ha => simpa [Slot.write,slot,hopen] using hundo c
    · exact hundo a

theorem Inv.populateStaged (h : w.Inv) (hs : w.staged=true) : (w.step (.populateStaged label names)).Inv := by
  exact h.write (c := (label,names)) hs wf_scannedMap exact_scannedMap (u := ⟨true,∅,∅⟩)
    (.created rfl _) (slot_write _ _ _)

theorem mem_holders : n∈w.holders c key ↔ w.overlay.keyAt c n=some key := by
  rw [holders,List.mem_filter,decide_eq_true_eq,and_iff_right_iff_imp]
  intro hk
  obtain ⟨r,hr,-⟩ := keyAt_eq_some_iff.mp hk
  exact mem_keys.mpr (lookup_isSome.mp (by simp [hr]))

theorem authoritative_seed (ha : w.authoritative c entries=true)
    (hone : entries.all (fun seed => decide ((w.holders c seed.1).length ≤ 1))=true) :
    ∀ seed ∈ entries, Slot.Authoritative (w.overlay.keyAt c) seed := by
  intro seed hseed n
  have hfound := List.all_eq_true.mp ha seed hseed
  have hlen := of_decide_eq_true (List.all_eq_true.mp hone seed hseed)
  rw [← mem_holders]
  cases hs : seed.2 with
  | none =>
    rw [hs,elim_none,List.isEmpty_iff] at hfound
    simp [hfound]
  | some id =>
    rw [hs,elim_some,List.contains_iff_mem] at hfound
    obtain ⟨m,hm⟩ := List.length_eq_one_iff.mp (Nat.le_antisymm hlen (List.length_pos_of_mem hfound))
    rw [hm,List.mem_singleton] at hfound
    rw [hm,List.mem_singleton,hfound]
    simp [eq_comm]

section
variable (h : w.Inv)
include h

theorem Inv.partial_seed (hc : ((w.index.maps.lookup c).getD .empty).complete=false) :
    Slot.Partial (w.overlay.keyAt c) ((w.index.maps.lookup c).getD .empty) := by
  cases hm : w.index.maps.lookup c with
  | none => exact ⟨ConstraintMap.wf_empty,rfl,.empty _⟩
  | some m => exact ⟨(h.good c).wf m hm,by simpa [hm] using hc,(h.good c).now m hm⟩

theorem Inv.seedCommittedKeys (hs : w.staged=false) (ha : w.authoritative (label,names) entries=true)
    (hcareful : w.careful (.seedCommittedKeys label names entries)=true) :
    (w.step (.seedCommittedKeys label names entries)).Inv := by
  unfold step IndexState.seedCommittedKeys
  dsimp only
  split
  · exact h
  · next hc =>
    rw [careful,Bool.not_eq_true _ |>.mp hc,Bool.false_or] at hcareful
    have hseeded := (h.partial_seed (by simpa using hc)).seedCommittedAll (authoritative_seed ha hcareful)
    refine h.install (c := (label,names)) hs hseeded.wf hseeded.exact fun a => ?_
    split
    · next ha =>
      subst ha
      simp [slot]
    · next ha => simp [slot,lookup_insert_ne ha]

theorem Inv.seedStagedKeys (hs : w.staged=true) (ha : w.authoritative (label,names) entries=true)
    (hcareful : w.careful (.seedStagedKeys label names entries)=true) :
    (w.step (.seedStagedKeys label names entries)).Inv := by
  unfold step IndexState.seedStagedKeys
  dsimp only
  split
  · exact h
  · next hc =>
    rw [careful,Bool.not_eq_true _ |>.mp hc,Bool.false_or] at hcareful
    have hstart := h.partial_seed (by simpa using hc)
    rw [lookup_journal]
    have hback : Back (w.index.slot (label,names)).journal (w.index.slot (label,names)).view
        (seedRollback (w.index.maps.lookup (label,names)) (w.index.slot (label,names)).journal)
        (some ((w.index.maps.lookup (label,names)).getD .empty).view) := by
      cases hm : w.index.maps.lookup (label,names) with
      | none => exact .created rfl _
      | some m =>
        have hview : (w.index.slot (label,names)).view=some m.view := by
          simp [Slot.view,slot,hm]
        rw [hview]
        exact .default fun u hu hcreated => (h.good _).covers u hu hcreated m hm
    obtain ⟨hseeded,hback⟩ := hstart.seedStagedAll (s := (_,_)) hback (authoritative_seed ha hcareful)
    exact h.write (c := (label,names)) hs hseeded.wf hseeded.exact hback (slot_write _ _ _)

theorem Inv.touch {new : ConstraintId → Option UniqueKey} {overlay : Overlay}
    (hoverlay : ∀ c, overlay.keyAt c=Function.update (w.overlay.keyAt c) id (new c))
    (hnew : ∀ c, ∀ m ∈ w.index.maps.lookup c, ∀ k, new c=some k →
      m.view.Knows k ∨ ∀ n, n≠id → w.overlay.keyAt c n≠some k) :
    Inv { w with index := w.index.touchMaps id new, overlay, staged := true } := by
  refine ⟨fun c => ?_,by simp,fun m hm => ⟨fun _ => rfl,fun hf => ?_⟩⟩
  · dsimp only
    rw [slot_touchMaps,hoverlay]
    exact (h.good c).touch (hnew c)
  · obtain ⟨hbase,hundo⟩ := (h.mark m hm).2 hf
    have hopen : w.index.requestUndo.isSome=true := by
      rw [← h.open_eq]
      exact isSome_of_mem hm
    refine ⟨hbase,fun c => ?_⟩
    have hreq : (w.index.slot c).request.isSome=true := by simpa [slot] using hopen
    rw [slot_touchMaps,Slot.touch]
    split
    · exact hundo c
    · simp [Slot.write,hreq,hundo c]

theorem Inv.applyUpsert (hcareful : w.careful (.applyUpsert id record)=true) :
    (w.step (.applyUpsert id record)).Inv := by
  refine h.touch (fun c => keyAt_insert record) fun c m hm k hk => ?_
  have hentry : (⟨c,m⟩ : Sigma fun _ : ConstraintId => ConstraintMap)∈w.index.maps.entries :=
    mem_lookup_iff.mp hm
  have hk' := List.all_eq_true.mp hcareful _ hentry
  simp only [hk,Bool.or_eq_true,List.all_eq_true,decide_eq_true_eq] at hk'
  obtain hanswers | hothers := hk'
  · exact .inl (((h.good c).wf m hm).answers_iff.mp hanswers)
  · refine .inr fun n hn hcon => ?_
    obtain ⟨r,hr,-⟩ := keyAt_eq_some_iff.mp hcon
    have hmem : n∈w.overlay.keys := mem_keys.mpr (lookup_isSome.mp (by simp [hr]))
    exact (hothers n hmem).elim hn (absurd hcon)

theorem Inv.applyTombstone (id : NodeId) : (w.step (.applyTombstone id)).Inv :=
  h.touch (fun _ => keyAt_erase) fun _ _ _ _ hk => by cases hk

theorem Inv.beginRequest (hm : w.mark=none) : (w.step .beginRequest).Inv := by
  have hclosed : w.index.requestUndo=none := by
    have := h.open_eq
    simpa [hm] using this.symm
  refine ⟨fun c => ⟨(h.good c).wf,(h.good c).now,?_⟩,fun hs => ?_,?_⟩
  · have hl := (h.good c).layers
    simp only [hm,slot,hclosed,Layers] at hl
    refine ⟨.no_entry ?_,hl⟩
    intro x hx
    obtain ⟨m,hm,rfl⟩ := map_eq_some_iff.mp hx
    exact (h.good c).now m hm
  · obtain ⟨hbase,hnone⟩ := h.clean hs
    refine ⟨hbase,fun c => ⟨(hnone c).1,?_⟩⟩
    simp [step,IndexState.beginRequest,slot]
  · rintro m ⟨⟩
    refine ⟨id,fun hf => ?_⟩
    obtain ⟨hbase,hnone⟩ := h.clean hf
    exact ⟨hbase,fun c => (hnone c).1⟩

theorem Inv.layers (hr : w.index.requestUndo=some request) : ∃ m, w.mark=some m ∧ ∀ c,
      Layer (m.1.keyAt c) (request.lookup c) (w.index.slot c).view ∧
      Layer (w.committed.keyAt c) (w.index.undo.lookup c) (undoView (request.lookup c) (w.index.slot c).view) := by
  have hopen := h.open_eq
  rw [hr,isSome_some,isSome_iff_exists] at hopen
  obtain ⟨m,hm⟩ := hopen
  refine ⟨m,hm,fun c => ?_⟩
  have hl := (h.good c).layers
  simpa [hm,slot,hr,Layers] using hl

theorem Inv.layer (hr : w.index.requestUndo=none) :
    w.mark=none ∧ ∀ c, Layer (w.committed.keyAt c) (w.index.undo.lookup c) (w.index.slot c).view := by
  have hm : w.mark=none := by
    have := h.open_eq
    simpa [hr] using this
  refine ⟨hm,fun c => ?_⟩
  have hl := (h.good c).layers
  simpa [hm,slot,hr,Layers] using hl

theorem Inv.mergeRequest (hcareful : w.careful .mergeRequest=true) : (w.step .mergeRequest).Inv := by
  unfold step IndexState.mergeRequest
  cases hr : w.index.requestUndo with
  | none =>
    obtain ⟨hm,-⟩ := h.layer hr
    rwa [← hm]
  | some request =>
    obtain ⟨m,hm,hl⟩ := h.layers hr
    refine ⟨fun c => ⟨(h.good c).wf,(h.good c).now,?_⟩,fun hs => ?_,by simp⟩
    · have hnew : ∀ r ∈ request.lookup c, r.createdInBatch=true →
          ∀ b ∈ w.index.undo.lookup c, b.createdInBatch=true := by
        intro r hrl hcreated b hb
        rw [careful,hr] at hcareful
        have := List.all_eq_true.mp hcareful ⟨c,r⟩ (mem_lookup_iff.mp hrl)
        rw [mem_def] at hb
        simpa [hcreated,hb] using this
      have hmerged := Slot.Layer.merge (hl c).1 (hl c).2 hnew
      rwa [← lookup_mergeEntries] at hmerged
    · obtain ⟨hbase,hnone⟩ := h.clean hs
      refine ⟨hbase,fun c => ⟨?_,by simp [slot]⟩⟩
      obtain ⟨hu,hreq⟩ := hnone c
      have hrc : request.lookup c=none := hreq _ (by simp [slot,hr])
      have hu : w.index.undo.lookup c=none := hu
      simp [slot,lookup_mergeEntries,hrc,hu,Slot.merged]

theorem Inv.rollbackRequest : (w.step .rollbackRequest).Inv := by
  unfold step IndexState.rollbackRequest
  cases hr : w.index.requestUndo with
  | none =>
    obtain ⟨hm,-⟩ := h.layer hr
    simp only [hm,getD_none]
    rwa [← hm]
  | some request =>
    obtain ⟨m,hm,hl⟩ := h.layers hr
    simp only [hm]
    refine ⟨fun c => ⟨?_,?_,?_⟩,fun hs => ?_,by simp⟩
    · simp only [slot,lookup_restore]
      exact Slot.wf_undone (h.good c).wf
    · simp only [slot,lookup_restore]
      exact Slot.exact_undone (h.good c).wf (hl c).1
    · simp only [slot,lookup_restore,Slot.view]
      rw [show w.index.maps.lookup c=(w.index.slot c).map from rfl,Slot.view_undone (h.good c).wf (hl c).1]
      exact (hl c).2
    · obtain ⟨hbase,hundo⟩ := (h.mark m hm).2 hs
      exact ⟨hbase,fun c => ⟨hundo c,by simp [slot]⟩⟩

theorem Inv.commitStaged : (w.step .commitStaged).Inv where
  good c := .of_clean (h.good c).wf (h.good c).now (by simp [step])
    (by simp [step,IndexState.commitStaged]) (by simp [step,IndexState.commitStaged])
  clean _ := ⟨rfl,fun c => by simp [step,IndexState.commitStaged,slot]⟩
  mark := by simp [step]

theorem Inv.rollbackStaged : (w.step .rollbackStaged).Inv := by
  -- the open request goes first, which is a step of its own
  have hrequest := h.rollbackRequest
  have hclosed : w.index.rollbackRequest.requestUndo=none := by
    unfold IndexState.rollbackRequest
    split
    · assumption
    · rfl
  obtain ⟨-,hl⟩ := hrequest.layer hclosed
  refine ⟨fun c => ?_,fun _ => ⟨rfl,fun c => ?_⟩,by simp [step]⟩
  · have hslot : (w.step .rollbackStaged).index.slot c =
        ⟨Slot.undone (w.index.rollbackRequest.undo.lookup c) (w.index.rollbackRequest.maps.lookup c),none,none⟩ := by
      simp [step,IndexState.rollbackStaged,slot,lookup_restore,hclosed]
    rw [hslot]
    exact .of_clean (Slot.wf_undone (hrequest.good c).wf) (Slot.exact_undone (hrequest.good c).wf (hl c))
      (by simp [step]) (by simp) (by simp [step])
  · simp [step,IndexState.rollbackStaged,slot,hclosed]

theorem Inv.step (hallowed : w.allowed act=true) (hcareful : w.careful act=true) : (w.step act).Inv := by
  cases act with
  | populate => exact h.populate (by simpa [allowed] using hallowed)
  | populateStaged => exact h.populateStaged (by simpa [allowed] using hallowed)
  | seedCommittedKeys =>
    simp only [allowed,Bool.and_eq_true,Bool.not_eq_true'] at hallowed
    exact h.seedCommittedKeys hallowed.1 hallowed.2 hcareful
  | seedStagedKeys =>
    simp only [allowed,Bool.and_eq_true] at hallowed
    exact h.seedStagedKeys hallowed.1 hallowed.2 hcareful
  | applyUpsert => exact h.applyUpsert hcareful
  | applyTombstone id => exact h.applyTombstone id
  | beginRequest => exact h.beginRequest (by simpa [allowed] using hallowed)
  | mergeRequest => exact h.mergeRequest hcareful
  | rollbackRequest => exact h.rollbackRequest
  | commitStaged => exact h.commitStaged
  | rollbackStaged => exact h.rollbackStaged

theorem Inv.run {acts : List Act} {w' : UniqueWriter}
    (hrun : run (fun w act => w.allowed act&&w.careful act) w acts=some w') : w'.Inv := by
  induction acts generalizing w with
  | nil =>
    cases hrun
    exact h
  | cons act acts ih =>
    rw [run] at hrun
    split at hrun
    · next hok =>
      obtain ⟨hallowed,hcareful⟩ := Bool.and_eq_true_iff.mp hok
      exact ih (h.step hallowed hcareful) hrun
    · cases hrun

end

/-- What a probe that leaves out `exclude` may answer when the scan finds `scan`. -/
def AnswersAs (exclude : Option NodeId) (scan : List NodeId) : UniqueProbe → Prop
  | .conflict id => id∈scan ∧ exclude≠some id
  | .noConflict => ∀ id ∈ scan, exclude=some id
  | .unindexable => False

section

variable {label : String} {probe : List (String × Value)} {key : UniqueKey} {m : ConstraintMap}

theorem Inv.holdersOf_perm (h : w.Inv) (hkey : encodeProbeKey (probe.map (·.2))=some key)
    (hm : w.index.maps.lookup (label,probe.map (·.1))=some m) (hans : m.answers key=true) :
    (m.holdersOf key).Perm (w.overlay.scanHolders label probe) := by
  have hgood := h.good (label,probe.map (·.1))
  have hwf := hgood.wf m hm
  rw [List.perm_ext_iff_of_nodup (hwf.nodup key) (nodup_scanHolders _ _ _)]
  intro n
  rw [hwf.mem_holdersOf,mem_scanHolders hkey]
  exact (hgood.now m hm).agrees key (hwf.answers_iff.mp hans) n

theorem Inv.probeAll_perm (h : w.Inv) (hkey : encodeProbeKey (probe.map (·.2))=some key)
    (hids : w.index.probeAll label (probe.map (·.1)) key=some ids) :
    ids.Perm (w.overlay.scanHolders label probe) := by
  unfold probeAll at hids
  split at hids
  · cases hids
  · next m hm =>
    split at hids
    · next hans =>
      cases hids
      exact h.holdersOf_perm hkey hm hans
    · cases hids

theorem Inv.probe_answersAs (h : w.Inv) (hkey : encodeProbeKey (probe.map (·.2))=some key)
    (hans : w.index.probe label (probe.map (·.1)) key exclude=some answer) :
    AnswersAs exclude (w.overlay.scanHolders label probe) answer := by
  unfold IndexState.probe at hans
  split at hans
  · cases hans
  · next m hm =>
    split at hans
    · next hknown =>
      have hperm := h.holdersOf_perm hkey hm hknown
      cases hf : (m.holdersOf key).find? fun id => some id≠exclude with
      | some id =>
        simp only [hf] at hans
        cases hans
        refine ⟨hperm.subset (List.mem_of_find?_eq_some hf),fun hcon => ?_⟩
        simpa [hcon] using List.find?_some hf
      | none =>
        simp only [hf] at hans
        cases hans
        intro id hid
        have hself : some id=exclude := by simpa using List.find?_eq_none.mp hf id (hperm.symm.subset hid)
        exact hself.symm
    · cases hans

end

def person (code : String) : NodeRecord := ⟨["Person"],(∅ : Properties).insert "code" (.str code)⟩

/-- One committed node, which holds "x". -/
def oneHolder : Overlay := (∅ : Overlay).insert 1 (person "x")

def answerAndScan (w : UniqueWriter) (code : String) : Option (List NodeId) × List NodeId :=
  (w.index.probeAll "Person" ["code"] [.str code],w.overlay.scanHolders "Person" [("code",.str code)])

/-- Two requests, one of them rolled back alone, before the batch is discarded. -/
def discardedBatch : List Act :=
  [.populate "Person" ["code"],.applyUpsert 2 (person "y"),.beginRequest,.applyTombstone 1,.mergeRequest,
    .beginRequest,.applyUpsert 3 (person "x"),.rollbackRequest,.rollbackStaged]

/-- The request makes a complete map while the batch's entry for the partial one stays in force, so the discard
keeps a map that was never exact for the committed nodes. -/
def mergedOverOlderEntry : List Act :=
  [.seedCommittedKeys "Person" ["code"] [([.str "y"],none)],.applyUpsert 2 (person "y"),.beginRequest,
    .applyTombstone 1,.populateStaged "Person" ["code"],.mergeRequest,.rollbackStaged]

/-- The upsert files a key that the partial map was never asked about. -/
def filedUnknownKey : List Act :=
  [.seedCommittedKeys "Person" ["code"] [([.str "y"],none)],.applyUpsert 2 (person "x")]

/-- The lookup finds one of two holders. -/
def twoHolders : Overlay := oneHolder.insert 2 (person "x")

end UniqueWriter
end NamiDB.Storage
