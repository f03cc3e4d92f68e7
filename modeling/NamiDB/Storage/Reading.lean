import NamiDB.Storage.DescriptorIndex
import NamiDB.Storage.Leveling
import NamiDB.Storage.StagedRequest

/-! The point read of an edge: it returns the last write, whatever was flushed, merged or staged since. -/
namespace NamiDB.Storage
open Lib List Sorted

/-- What descriptors and blooms are asked for. -/
def MemKey.target : MemKey → Key16
  | .node id => id
  | .edge _ src _ => src

/-- The entry of a key, as a row. -/
def memRow (m : Memtable) (k : MemKey) : Option WalEntry := (m.lookup k).map fun e => ⟨k,e.op,e.lsn⟩

/-- `overlay` is what the writer has staged; `admits` are the blooms of the bodies. -/
structure Snapshot where
  manifest : Manifest
  rows : RelPath → List WalEntry
  memtable : Memtable
  overlay : Option Memtable
  admits : SstDescriptor → Key16 → Bool

namespace Snapshot
variable (self : Snapshot)

/-- The staged entry of a key, unless the committed one is newer. -/
def edgeMemEntry (key : MemKey) : Option WalEntry :=
  match self.overlay.bind (memRow · key),memRow self.memtable key with
  | some s,some c => if c.lsn ≤ s.lsn then some s else some c
  | some s,none => some s
  | none,c => c

/-- The row of `key` in the body of a descriptor. -/
def findRow (key : MemKey) (desc : SstDescriptor) : Option WalEntry :=
  if self.admits desc key.target then (self.rows desc.path).find? (·.key=key) else none

/-- The newest bodies come first, and a body with nothing newer than the winner is not opened. -/
def lookupEdgeViaSst (edgeType : String) (src dst : Key16) : Option WalEntry :=
  let ssts := self.manifest.ssts
  let key := .edge edgeType src dst
  let candidates := (sortByKey (fun i => toLex (OrderDual.toDual (ssts.get i).maxLsn,OrderDual.toDual i))
    ((DescriptorIndex.build ssts).lookupCandidates .edgesFwd edgeType src)).map ssts.get
  let winner := candidates.foldl (fun winner desc =>
    if winner.all (·.lsn<desc.maxLsn) then
      (self.findRow key desc).elim winner (pick WalEntry.lsn winner)
    else winner) (self.edgeMemEntry key)
  winner.filter (!·.isTombstone)

end Snapshot

/-- What a map that only ever sees the writes, newest first, has for a key. -/
def lastWrite (log : List WalEntry) (k : MemKey) : Option WalEntry :=
  (log.find? (·.key=k)).filter (!·.isTombstone)

namespace Lsm
/-- A run with its writes, newest first. No other step takes an LSN. -/
inductive Run : List WalEntry → Lsm → Prop
  | empty (epoch : Epoch) (writerId : Uuid) (now : Time) : Run [] (empty epoch writerId now)
  | write {log : List WalEntry} {s : Lsm} (h : Run log s) (key : MemKey) (op : MemOp) :
      Run (⟨key,op,s.nextLsn⟩::log) (s.write key op)
  | other {log : List WalEntry} {s s' : Lsm} (h : Run log s) (hs : Step s s') (hn : s'.nextLsn=s.nextLsn) : Run log s'

/-- The writer's view after a run, while `staged`, newest first, is not committed. No bloom misses a row. -/
structure View where
  state : Lsm
  log : List WalEntry
  staged : List WalEntry
  admits : SstDescriptor → Key16 → Bool
  run : Run log state
  staged_ge : ∀ e∈staged, state.nextLsn≤e.lsn
  admits_rows : ∀ x∈state.ssts, ∀ r∈x.rows, admits x.desc (ofLex (sortKey x.desc.kind r.key)).1

def stagedMemtable (staged : List WalEntry) : Memtable := replay (staged.reverse.map fun e => (e.key,e.lsn,e.op))

def View.overlaySnapshot (v : View) : Snapshot :=
  let overlay := if v.staged=[] then none else some (stagedMemtable v.staged)
  ⟨v.state.manifest,v.state.rows,v.state.memtable,overlay,v.admits⟩

variable {s s' : Lsm} {log staged : List WalEntry} {pending : List BucketOutcome} {k : MemKey}

/-- The bucket a key is looked up in. -/
def bucketOf : MemKey → Bucket
  | .node _ => nodesBucket
  | .edge t _ _ => ⟨.edgesFwd,t⟩

theorem holds_bucketOf (k : MemKey) : (bucketOf k).holds k := by
  cases k <;> simp [bucketOf,nodesBucket,Bucket.holds]

theorem target_eq (k : MemKey) : (ofLex (sortKey (bucketOf k).kind k)).1=k.target := by
  cases k <;> rfl

theorem memRow_eq_some : memRow m k=some r ↔ r∈frozenRows m ∧ r.key=k := by
  rw [mem_frozenRows,memRow,Option.map_eq_some_iff]
  constructor
  · rintro ⟨e,he,rfl⟩
    exact ⟨he,rfl⟩
  · rintro ⟨h,rfl⟩
    exact ⟨_,h,rfl⟩

/-- What a reader without an overlay sees. -/
def content (s : Lsm) (k : MemKey) : Option WalEntry :=
  (memRow s.memtable k).elim (visible s.ssts (bucketOf k) k) fun r => (some r).filter (!·.isTombstone)

theorem mem_versions_pending : r∈versions (buildPendingSsts fresh m) (bucketOf r.key) ↔ r∈frozenRows m := by
  rw [mem_versions]
  constructor
  · rintro ⟨x,⟨hx,-⟩,hr⟩
    obtain ⟨b,-,rfl⟩ := mem_map.mp hx
    exact (mem_bucketRows.mp hr).1
  · intro hr
    have hb : bucketOf r.key∈flushBuckets m :=
      mem_flushBuckets.mpr ⟨by cases r.key <;> simp [bucketOf,nodesBucket],r,hr,holds_bucketOf _⟩
    exact ⟨_,⟨mem_map_of_mem hb,rfl⟩,mem_bucketRows.mpr ⟨hr,holds_bucketOf _⟩⟩

theorem versions_append : versions (xs++ys) b=versions xs b++versions ys b := by
  simp [versions]

section
variable (h : s.Inv pending)
include h

theorem Inv.ssts_flush (schema : Schema) (writerId : Uuid) (now : Time)
    (hf : FreshFor s.used fresh (flushBuckets s.memtable)) :
    (s.flush schema fresh writerId now).ssts=s.ssts++buildPendingSsts fresh s.memtable ∧
      (s.flush schema fresh writerId now).memtable=∅ := by
  unfold Lsm.flush
  split
  · rename_i he
    exact ⟨by simp [buildPendingSsts,flushBuckets,edgeTypesOf,frozenRows,he],AList.ext he⟩
  refine ⟨?_,rfl⟩
  have hadds := flushAdds_pending hf h.backed.tree.sound h.newer
  have hm : (flushedManifest s.manifest schema (buildPendingSsts fresh s.memtable) [] writerId now).ssts=
      s.manifest.ssts++(buildPendingSsts fresh s.memtable).map (·.desc) := by
    simp [flushedManifest,Manifest.nextVersion]
  rw [ssts,sstsOf_append hm fun x hx => ⟨putBodies_mem hx fun y hy hp => ?_,path_of_mem_buildPendingSsts hx⟩,
    sstsOf_congr fun d hd => ?_]
  · rfl
  · -- the identifiers of the new bodies are fresh
    have hx : Known s.ssts pending (sstAt s.rows d) := .inl (mem_map_of_mem hd)
    refine putBodies_other (x := sstAt s.rows d) fun y hy hp => hadds.id_fresh y hy ?_
    rw [id_eq_of_path (path_of_mem_buildPendingSsts hy) (h.backed.stored _ hx).path_eq hp]
    exact (h.backed.tree.used _ hx).1
  · rw [inj_on_of_nodup_map hadds.nodup hy hx
      (id_eq_of_path (path_of_mem_buildPendingSsts hy) (path_of_mem_buildPendingSsts hx) hp)]

theorem Inv.visible_flush (hd : Distinct WalEntry.key WalEntry.lsn
      (versions (s.ssts++buildPendingSsts fresh s.memtable) (bucketOf k))) :
    visible (s.ssts++buildPendingSsts fresh s.memtable) (bucketOf k) k=s.content k := by
  rw [versions_append] at hd
  rw [visible,live,versions_append,content]
  cases hm : memRow s.memtable k with
  | none =>
    -- nothing of the key was flushed
    have hnone : (versions (buildPendingSsts fresh s.memtable) (bucketOf k)).filter (fun r => r.key=k)=[] := by
      refine filter_eq_nil_iff.mpr fun r hr hrk => ?_
      obtain rfl := of_decide_eq_true hrk
      have := memRow_eq_some.mpr ⟨mem_versions_pending.mp hr,rfl⟩
      simp [hm] at this
    rw [newest,filter_append,hnone,append_nil]
    rfl
  | some r =>
    obtain ⟨hr,rfl⟩ := memRow_eq_some.mp hm
    rw [(newest_eq_some hd).mpr ⟨mem_append_right _ (mem_versions_pending.mpr hr),rfl,fun x hx hxk => ?_⟩]
    · rfl
    rcases mem_append.mp hx with hx | hx
    · obtain ⟨y,hy,hxy⟩ := mem_versions.mp hx
      exact (h.newer r hr y hy.1 x hxy).le
    · exact (congrArg _ (frozenRows_unique (mem_versions_pending.mp (hxk ▸ hx)) hr hxk)).le

theorem Inv.content_flush (hf : FreshFor s.used fresh (flushBuckets s.memtable)) :
    (s.flush schema fresh writerId now).content k=s.content k := by
  obtain ⟨hssts,hmem⟩ := h.ssts_flush schema writerId now hf
  have hd := (h.flush schema writerId now hf).backed.tree.distinct_versions (bucketOf k)
  rw [← ssts,hssts] at hd
  rw [content,hssts,hmem]
  exact h.visible_flush hd

theorem Inv.ssts_prepare (policy : CompactionPolicy) (hf : FreshFor s.used fresh (s.manifest.ssts.map (·.bucket))) :
    (s.prepare policy fresh).ssts=s.ssts ∧ (s.prepare policy fresh).memtable=s.memtable := by
  unfold Lsm.prepare
  split
  case h_2 => exact ⟨rfl,rfl⟩
  rename_i p hp
  obtain ⟨os,rfl,-,hplan⟩ := prepareLeveled_ok hp
  exact ⟨by simpa [ssts,PreparedCompaction.ofOutcomes] using (h.backed.keeps_putBodies hf hplan).sstsOf_eq,rfl⟩

theorem Inv.content_install (hp : p∈s.prepared) : (s.install p writerId now).content k=s.content k := by
  unfold Lsm.install
  split
  case h_2 => rfl
  rename_i m hm
  obtain ⟨base,os,rfl,hos,hone⟩ := h.prepared p hp
  rw [content,content,ssts,h.backed.visible_install hos hm hone]
  rfl

end

/-- A state that serves the writes of `log`. -/
structure Serves (s : Lsm) (log : List WalEntry) : Prop where
  inv : ∃ pending, s.Inv pending
  content_eq : ∀ k, s.content k=lastWrite log k

theorem Serves.write (h : s.Serves log) : (s.write key op).Serves (⟨key,op,s.nextLsn⟩::log) := by
  obtain ⟨⟨pending,hinv⟩,hc⟩ := h
  refine ⟨⟨pending,hinv.write key op⟩,fun k => ?_⟩
  rw [content,lastWrite,Lsm.write,memRow]
  by_cases hkey : k=key
  · subst hkey
    rw [Memtable.lookup_apply_same,find?_cons_of_pos (by simp)]
    rfl
  · rw [Memtable.lookup_apply_ne _ _ _ hkey,find?_cons_of_neg (by simpa using Ne.symm hkey)]
    exact hc k

theorem Serves.step (h : s.Serves log) (hs : Step s s') (hn : s'.nextLsn=s.nextLsn) : s'.Serves log := by
  obtain ⟨⟨pending,hinv⟩,hc⟩ := h
  cases hs with
  | write key op => simp [Lsm.write] at hn
  | flush schema fresh writerId now hf =>
    exact ⟨⟨pending,hinv.flush schema writerId now hf⟩,fun k => (hinv.content_flush hf).trans (hc k)⟩
  | prepare policy fresh hf =>
    obtain ⟨hssts,hmem⟩ := hinv.ssts_prepare policy hf
    refine ⟨hinv.prepare policy hf,fun k => ?_⟩
    rw [content,hssts,hmem]
    exact hc k
  | install p hp writerId now =>
    exact ⟨⟨pending,hinv.install hp writerId now⟩,fun k => (hinv.content_install hp).trans (hc k)⟩

theorem Run.serves (h : Run log s) : s.Serves log := by
  induction h with
  | empty epoch writerId now => exact ⟨⟨[],inv_empty epoch writerId now⟩,fun _ => rfl⟩
  | write _ key op ih => exact ih.write
  | other _ hs hn ih => exact ih.step hs hn

theorem memRow_stagedMemtable : memRow (stagedMemtable staged) k=staged.find? (·.key=k) := by
  rw [stagedMemtable,replay,foldl_map,foldl_reverse,memRow]
  induction staged with
  | nil => rfl
  | cons e staged ih =>
    rw [foldr_cons]
    by_cases hk : e.key=k
    · rw [← hk,Memtable.lookup_apply_same,find?_cons_of_pos (by simp)]
      rfl
    · rw [Memtable.lookup_apply_ne _ _ _ (Ne.symm hk),find?_cons_of_neg (by simpa using hk)]
      exact ih

namespace View
variable {v : View} {ds : List SstDescriptor}

theorem edgeMemEntry_eq (k : MemKey) : v.overlaySnapshot.edgeMemEntry k=
    (v.staged.find? (·.key=k)).or (memRow v.state.memtable k) := by
  have hover : v.overlaySnapshot.overlay.bind (memRow · k)=v.staged.find? (·.key=k) := by
    rw [overlaySnapshot,← memRow_stagedMemtable]
    split_ifs with h
    · rw [h]
      rfl
    · rfl
  rw [Snapshot.edgeMemEntry,hover]
  cases hf : v.staged.find? (·.key=k) with
  | none => rfl
  | some e =>
    cases hm : memRow v.state.memtable k with
    | none => simp [overlaySnapshot,hm]
    | some c =>
      -- what is staged has a later LSN than anything committed
      obtain ⟨pending,hinv⟩ := v.run.serves.inv
      have hlt := hinv.frozen_lt c (memRow_eq_some.mp hm).1
      have hge := v.staged_ge e (mem_of_find?_eq_some hf)
      simp [overlaySnapshot,hm,(hlt.trans_le hge).le]

section
variable (hds : ∀ d, d∈ds ↔ d∈v.state.manifest.ssts ∧ d.bucket=bucketOf k ∧ d.minKey≤k.target ∧ k.target≤d.maxKey)
include hds

theorem mem_found (r : WalEntry) : r∈ds.filterMap (v.overlaySnapshot.findRow k) ↔
    r∈versions v.state.ssts (bucketOf k) ∧ r.key=k := by
  obtain ⟨pending,hinv⟩ := v.run.serves.inv
  rw [mem_filterMap,mem_versions]
  constructor
  · rintro ⟨d,hd,hr⟩
    obtain ⟨hd,hb,-⟩ := (hds d).mp hd
    rw [Snapshot.findRow,Option.ite_none_right_eq_some] at hr
    exact ⟨⟨sstAt v.state.rows d,⟨mem_map_of_mem hd,hb⟩,mem_of_find?_eq_some hr.2⟩,by simpa using find?_some hr.2⟩
  · rintro ⟨⟨x,⟨hx,hb⟩,hr⟩,rfl⟩
    have hs := hinv.backed.tree.sound x hx
    have hkind : x.desc.kind=(bucketOf r.key).kind := congrArg Bucket.kind hb
    have hrange := And.intro (hs.minKey_le r hr) (hs.le_maxKey r hr)
    have hadm := v.admits_rows x hx r hr
    rw [hkind,target_eq] at hadm hrange
    have hfind : x.rows.find? (·.key=r.key)=some r := by
      cases hf : x.rows.find? (·.key=r.key) with
      | none => exact absurd (decide_eq_true rfl) (find?_eq_none.mp hf r hr)
      | some r' => rw [hs.unique r' (mem_of_find?_eq_some hf) r hr (by simpa using find?_some hf)]
    obtain ⟨d,hd,rfl⟩ := mem_map.mp hx
    exact ⟨d,(hds d).mpr ⟨hd,hb,hrange⟩,Option.ite_none_right_eq_some.mpr ⟨hadm,hfind⟩⟩

theorem resolved : ((ds.filterMap (v.overlaySnapshot.findRow k)).foldl (pick WalEntry.lsn)
      (v.overlaySnapshot.edgeMemEntry k)).filter (!·.isTombstone)=lastWrite (v.staged++v.log) k := by
  have hL := mem_found hds
  obtain ⟨⟨pending,hinv⟩,hc⟩ := v.run.serves
  rw [edgeMemEntry_eq,lastWrite,find?_append]
  cases hf : v.staged.find? (·.key=k) with
  | some e =>
    rw [Option.some_or,Option.some_or,foldl_pick_of_le fun r hr => ?_]
    obtain ⟨x,hx,hrx⟩ := mem_versions.mp ((hL r).mp hr).1
    exact (hinv.stored_lt x hx.1 r hrx).le.trans (v.staged_ge e (mem_of_find?_eq_some hf))
  | none =>
    rw [Option.none_or,Option.none_or]
    refine .trans ?_ (hc k)
    rw [content]
    cases hm : memRow v.state.memtable k with
    | none =>
      rw [foldl_pick_eq_newest (hinv.backed.tree.distinct_versions _) hL]
      rfl
    | some e =>
      rw [foldl_pick_of_le fun r hr => ?_]
      · rfl
      obtain ⟨x,hx,hrx⟩ := mem_versions.mp ((hL r).mp hr).1
      exact (hinv.newer e (memRow_eq_some.mp hm).1 x hx.1 r hrx).le

end

theorem mem_lookupCandidates : d∈((DescriptorIndex.build ds).lookupCandidates kind scope target).map ds.get ↔
    d∈ds ∧ d.bucket=⟨kind,scope⟩ ∧ d.minKey≤target ∧ target≤d.maxKey := by
  simp only [mem_map,(lookupCandidates_perm ds kind scope target).mem_iff,mem_filter,mem_finRange,true_and,
    decide_eq_true_eq]
  constructor
  · rintro ⟨i,⟨hb,hi⟩,rfl⟩
    exact ⟨get_mem ds i,by simpa [SstDescriptor.bucket] using hb,hi⟩
  · rintro ⟨hd,hb,hi⟩
    obtain ⟨i,rfl⟩ := get_of_mem hd
    exact ⟨i,⟨by simpa [SstDescriptor.bucket] using hb,hi⟩,rfl⟩

/-- A body that is skipped has no row newer than the winner. -/
theorem foldl_skip (h : ∀ d∈ds, ∀ r, f d=some r → r.lsn≤d.maxLsn) (w : Option WalEntry) :
    ds.foldl (fun w d => if w.all (·.lsn<d.maxLsn) then (f d).elim w (pick WalEntry.lsn w) else w) w=
      (ds.filterMap f).foldl (pick WalEntry.lsn) w := by
  rw [foldl_filterMap]
  refine foldl_ext _ _ _ fun w d hd => ?_
  cases hf : f d with
  | none => exact ite_self _
  | some r =>
    split_ifs with hw
    · rfl
    cases w with
    | none => exact absurd rfl hw
    | some e => exact (if_neg (not_lt.mpr ((h d hd r hf).trans (by simpa using hw)))).symm

/-- After any run, with bloom filters that miss nothing and whatever is staged, the lookup of an edge returns its last
write, unless that was a deletion, although it leaves out the bodies that are too old. -/
theorem lookupEdgeViaSst_last_write (v : View) (edgeType : String) (src dst : Key16) :
    v.overlaySnapshot.lookupEdgeViaSst edgeType src dst = lastWrite (v.staged ++ v.log) (.edge edgeType src dst) := by
  obtain ⟨pending,hinv⟩ := v.run.serves.inv
  rw [Snapshot.lookupEdgeViaSst,foldl_skip fun d hd r hr => ?_]
  · exact resolved fun d => ((sortByKey_perm _ _).map _).mem_iff.trans mem_lookupCandidates
  rw [Snapshot.findRow,Option.ite_none_right_eq_some] at hr
  have hd := (mem_lookupCandidates.mp (((sortByKey_perm _ _).map _).mem_iff.mp hd)).1
  exact (hinv.backed.tree.sound _ (mem_map_of_mem hd)).lsn_le r (mem_of_find?_eq_some hr.2)

def edgeBodies (b : Bucket) : NewSst := numbered (if b.kind = .edgesFwd then 20 else 21) b

/-- An edge is stored and then deleted; another one is staged. -/
def stagedView : View where
  state := (((empty 1 7 0).write (.edge "R" 1 2) (.upsert [1])).flush {} edgeBodies 7 1).write (.edge "R" 1 2)
    .tombstone
  log := [⟨.edge "R" 1 2, .tombstone,2⟩,⟨.edge "R" 1 2, .upsert [1],1⟩]
  staged := [⟨.edge "R" 1 3, .upsert [3],3⟩]
  admits _ _ := true
  run := .write (.other (.write (.empty 1 7 0) _ _) (.flush _ {} edgeBodies 7 1 ⟨by decide +kernel,by decide +kernel⟩)
    rfl) _ _
  staged_ge := by decide +kernel
  admits_rows _ _ _ _ := rfl

theorem lookupEdgeViaSst_staged : stagedView.state.ssts.length = 2 ∧
    stagedView.overlaySnapshot.lookupEdgeViaSst "R" 1 2 = none ∧
    stagedView.overlaySnapshot.lookupEdgeViaSst "R" 1 3 = some ⟨.edge "R" 1 3, .upsert [3], 3⟩ :=
  ⟨by decide +kernel, lookupEdgeViaSst_last_write stagedView "R" 1 2, lookupEdgeViaSst_last_write stagedView "R" 1 3⟩

end View
end Lsm
end NamiDB.Storage
