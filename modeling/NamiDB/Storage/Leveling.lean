import NamiDB.Storage.Bodies

/-! Runs of flushes and compactions over one namespace. Merges are planned on the manifest of one
moment and installed on that of any later one. -/
namespace NamiDB.Storage
open Lib List

/-- The manifest and its bodies, the writer's memtable, and every compaction prepared so far. -/
structure Lsm where
  manifest : Manifest
  rows : RelPath → List WalEntry
  memtable : Memtable
  nextLsn : Lsn
  used : List Uuid
  prepared : List PreparedCompaction

def putBodies (rows : RelPath → List WalEntry) (new : List Sst) : RelPath → List WalEntry :=
  fun path => match new.find? fun x => x.desc.path=path with
    | some x => x.rows
    | none => rows path

def newIds (fresh : Bucket → NewSst) (bs : List Bucket) : List Uuid := bs.map fun b => (fresh b).id

theorem mem_newIds (h : b∈bs) : (fresh b).id∈newIds fresh bs :=
  mem_map.mpr ⟨b,h,rfl⟩

namespace Lsm

def empty (epoch : Epoch) (writerId : Uuid) (now : Time) : Lsm :=
  ⟨Manifest.empty epoch writerId now,fun _ => [],∅,1,[],[]⟩

def ssts (s : Lsm) : List Sst := sstsOf s.rows s.manifest

def write (s : Lsm) (key : MemKey) (op : MemOp) : Lsm :=
  { s with memtable := s.memtable.apply key s.nextLsn op, nextLsn := s.nextLsn+1 }

def flush (s : Lsm) (schema : Schema) (fresh : Bucket → NewSst) (writerId : Uuid) (now : Time) : Lsm :=
  if s.memtable.entries=[] then s
  else
    let new := buildPendingSsts fresh s.memtable
    { s with
      manifest := flushedManifest s.manifest schema new [] writerId now
      rows := putBodies s.rows new
      memtable := ∅
      used := newIds fresh (flushBuckets s.memtable)++s.used }

/-- No search index is registered in these runs, so no search body is built. -/
def prepare (s : Lsm) (policy : CompactionPolicy) (fresh : Bucket → NewSst) : Lsm :=
  match prepareLeveled policy s.rows s.manifest fresh {} with
  | .ok p =>
    { s with
      rows := putBodies s.rows p.newSsts
      used := newIds fresh (s.manifest.ssts.map (·.bucket))++s.used
      prepared := p::s.prepared }
  | .error _ => s

def install (s : Lsm) (p : PreparedCompaction) (writerId : Uuid) (now : Time) : Lsm :=
  match installedManifest s.manifest p writerId now with
  | .ok (some m) => { s with manifest := m }
  | _ => s

inductive Step : Lsm → Lsm → Prop
  | write (s : Lsm) (key : MemKey) (op : MemOp) : Step s (s.write key op)
  | flush (s : Lsm) (schema : Schema) (fresh : Bucket → NewSst) (writerId : Uuid) (now : Time)
      (hf : FreshFor s.used fresh (flushBuckets s.memtable)) : Step s (s.flush schema fresh writerId now)
  | prepare (s : Lsm) (policy : CompactionPolicy) (fresh : Bucket → NewSst)
      (hf : FreshFor s.used fresh (s.manifest.ssts.map (·.bucket))) : Step s (s.prepare policy fresh)
  | install (s : Lsm) (p : PreparedCompaction) (hp : p∈s.prepared) (writerId : Uuid) (now : Time) :
      Step s (s.install p writerId now)

/-- The states of a namespace that starts from an empty manifest. -/
inductive Reachable : Lsm → Prop
  | empty (epoch : Epoch) (writerId : Uuid) (now : Time) : Reachable (empty epoch writerId now)
  | step {s s' : Lsm} (h : Reachable s) (hs : Step s s') : Reachable s'

end Lsm

section

variable {used : List Uuid} {fresh : Bucket → NewSst} {frozen : Memtable}

theorem flushAdds_pending (hf : FreshFor used fresh (flushBuckets frozen)) (hsound : ∀ x ∈ ssts, x.Sound)
    (hnew : ∀ e ∈ frozenRows frozen, ∀ x ∈ ssts, ∀ r ∈ x.rows, r.lsn<e.lsn) :
    FlushAdds used (newIds fresh (flushBuckets frozen)++used) ssts (buildPendingSsts fresh frozen) := by
  have hbuild : ∀ b : Bucket, Sst.buildId
      ⟨sstDescriptor b 0 (fresh b) (bucketRows frozen b),bucketRows frozen b⟩=(fresh b).id :=
    fun b => (buildId_sstDescriptor b 0 (fresh b) _ _ 0).1
  refine
    { sound := fun y hy => sound_of_mem_buildPendingSsts hy
      level_eq := forall_mem_map.mpr fun b _ => rfl
      one_per_bucket := forall_mem_map.mpr fun b _ => forall_mem_map.mpr fun b' _ hb => ?_
      nodup := ?_
      newer := forall_mem_map.mpr fun b hb x hx => ?_
      id_fresh := forall_mem_map.mpr hf.not_used
      build_fresh := forall_mem_map.mpr fun b hb => ?_
      id_used := forall_mem_map.mpr fun b hb => ?_
      used_subset := subset_append_right _ _ }
  · have hbb : b=b' := hb
    rw [hbb]
  · rw [buildPendingSsts,map_map]
    exact (nodup_flushBuckets frozen).map_on fun b hb b' hb' hid => hf.inj b hb b' hb' hid
  · exact ⟨(sound_of_mem_buildPendingSsts (mem_map_of_mem hb)).rows_ne,(hsound x hx).rows_ne,
      fun e he r hr => hnew e (mem_bucketRows.mp he).1 x hx r hr⟩
  · rw [hbuild b]
    exact hf.not_used b hb
  · rw [hbuild b]
    have hin : (fresh b).id∈newIds fresh (flushBuckets frozen)++used :=
      mem_append_left _ (mem_newIds hb)
    exact ⟨hin,hin⟩

theorem path_of_mem_buildPendingSsts (h : y∈buildPendingSsts fresh frozen) :
    ∃ level rest, y.desc.path = .sst level (.named y.desc.id rest) := by
  obtain ⟨b,-,rfl⟩ := mem_map.mp h
  exact ⟨_,_,rfl⟩

end

section

variable {rows : RelPath → List WalEntry} {new : List Sst} {x : Sst}

theorem id_eq_of_path {y : Sst} (hx : ∃ level rest, x.desc.path = .sst level (.named x.desc.id rest))
    (hy : ∃ level rest, y.desc.path = .sst level (.named y.desc.id rest)) (h : x.desc.path=y.desc.path) :
    x.desc.id=y.desc.id := by
  obtain ⟨l,r,hx⟩ := hx
  obtain ⟨l',r',hy⟩ := hy
  rw [hx,hy] at h
  simp only [RelPath.sst.injEq,FileName.named.injEq] at h
  exact h.2.1

theorem putBodies_other (h : ∀ y ∈ new, y.desc.path≠x.desc.path) :
    putBodies rows new x.desc.path=rows x.desc.path := by
  unfold putBodies
  rw [find?_eq_none.mpr fun y hy => by simpa using h y hy]

theorem putBodies_mem (hx : x∈new) (hsame : ∀ y ∈ new, y.desc.path=x.desc.path → y.rows=x.rows) :
    putBodies rows new x.desc.path=x.rows := by
  unfold putBodies
  cases hf : new.find? fun y => y.desc.path=x.desc.path with
  | none => exact absurd (decide_eq_true rfl) (find?_eq_none.mp hf x hx)
  | some y =>
    exact hsame y (mem_of_find?_eq_some hf) (by simpa using find?_some hf)

end

section

variable {used : List Uuid} {rows : RelPath → List WalEntry} {m : Manifest}
  {pending os : List BucketOutcome} {fresh : Bucket → NewSst} {o : BucketOutcome}

section
variable (h : Backed used rows m pending)
include h

theorem Backed.output_path (hp : o.Planned rows m new) (hz : o.output=some z) :
    ∃ level rest, z.desc.path = .sst level (.named z.desc.id rest) := by
  have hsound : ∀ x ∈ o.inputs, x.Sound := fun x hx => h.tree.sound x (hp.ready x hx).1
  cases hrw : o.rewrite with
  | merge t gc => exact (hp.mergeOutput hsound hrw hz).path_eq
  | inPlace =>
    obtain ⟨x,z',hm,hx,-⟩ := hp.migration hsound hrw
    obtain rfl := Option.some.inj (hm.output_eq.symm.trans hz)
    rw [hm.path_eq,hm.id_eq]
    exact (h.stored x (.inl (hp.ready x hx).1)).path_eq

theorem Backed.output_rows (hfresh : FreshFor used fresh (m.ssts.map (·.bucket)))
    (hp : o.Planned rows m (fresh o.bucket)) (hz : o.output=some z) (hx : Known (sstsOf rows m) pending x)
    (hpath : z.desc.path=x.desc.path) : z.rows=rows x.desc.path := by
  have hsound : ∀ x ∈ o.inputs, x.Sound := fun x hx => h.tree.sound x (hp.ready x hx).1
  have hid := id_eq_of_path (h.output_path hp hz) (h.stored x hx).path_eq hpath
  cases hrw : o.rewrite with
  | merge t gc =>
    have hnew := (hp.mergeOutput hsound hrw hz).id_eq
    have hu := (h.tree.used x hx).1
    rw [← hid,hnew] at hu
    exact absurd hu (hfresh.not_used o.bucket hp.bucket_mem)
  | inPlace =>
    obtain ⟨y,z',hm,hy,-⟩ := hp.migration hsound hrw
    obtain rfl := Option.some.inj (hm.output_eq.symm.trans hz)
    rw [hm.rows_eq,← hpath,hm.path_eq]
    exact (h.stored y (.inl (hp.ready y hy).1)).rows_eq.symm

theorem Backed.keeps_putBodies (hfresh : FreshFor used fresh (m.ssts.map (·.bucket)))
    (hplan : ∀ o ∈ os, o.Planned rows m (fresh o.bucket)) :
    Keeps rows (putBodies rows (os.filterMap (·.output))) m pending := by
  intro x hx
  unfold putBodies
  split
  · rename_i z hz
    obtain ⟨o,ho,hout⟩ := mem_filterMap.mp (mem_of_find?_eq_some hz)
    have hpath : z.desc.path=x.desc.path := by simpa using find?_some hz
    exact h.output_rows hfresh (hplan o ho) hout hx hpath
  · rfl

theorem Backed.stored_putBodies (hfresh : FreshFor used fresh (m.ssts.map (·.bucket))) (hone : OnePerBucket os)
    (hplan : ∀ o ∈ os, o.Planned rows m (fresh o.bucket)) :
    ∀ o ∈ os, ∀ z, o.output=some z → Stored (putBodies rows (os.filterMap (·.output))) z := by
  have htree := h.tree.prepare hfresh hone hplan
    (subset_append_right (newIds fresh (os.map (·.bucket))) used)
    fun o ho => mem_append_left _ (mem_newIds (mem_map_of_mem ho))
  intro o ho z hz
  refine ⟨putBodies_mem (mem_filterMap.mpr ⟨o,ho,hz⟩) fun y hy hpath => ?_,h.output_path (hplan o ho) hz⟩
  obtain ⟨o',ho',hy⟩ := mem_filterMap.mp hy
  have hid := id_eq_of_path (h.output_path (hplan o' ho') hy) (h.output_path (hplan o ho) hz) hpath
  -- one identifier is one bucket, and a bucket has one outcome
  have hsame := (htree.same_id y z (.inr ⟨o',mem_append_left _ ho',.inr hy⟩)
    (.inr ⟨o,mem_append_left _ ho,.inr hz⟩) hid).1
  rw [(htree.ok o' (mem_append_left _ ho')).output_bucket y hy,
    (htree.ok o (mem_append_left _ ho)).output_bucket z hz] at hsame
  obtain rfl := hone.eq ho' ho hsame
  rw [Option.some.inj (hy.symm.trans hz)]

end

end

namespace Lsm

variable {s : Lsm} {pending : List BucketOutcome} {fresh : Bucket → NewSst} {p : PreparedCompaction}

structure Inv (s : Lsm) (pending : List BucketOutcome) : Prop where
  backed : Backed s.used s.rows s.manifest pending
  prepared : ∀ p ∈ s.prepared, ∃ base os, p = .ofOutcomes base os {} ∧ os ⊆ pending ∧ OnePerBucket os
  stored_lt : ∀ x ∈ s.ssts, ∀ r ∈ x.rows, r.lsn<s.nextLsn
  frozen_lt : ∀ e ∈ frozenRows s.memtable, e.lsn<s.nextLsn
  newer : ∀ e ∈ frozenRows s.memtable, ∀ x ∈ s.ssts, ∀ r ∈ x.rows, r.lsn<e.lsn

theorem inv_empty (epoch : Epoch) (writerId : Uuid) (now : Time) : (empty epoch writerId now).Inv [] where
  backed := ⟨treeInv_nil _,by simp [Known,empty,sstsOf,Manifest.empty]⟩
  prepared := by simp [empty]
  stored_lt := by simp [empty,ssts,sstsOf,Manifest.empty]
  frozen_lt := by simp [empty,frozenRows]
  newer := by simp [empty,frozenRows]

theorem mem_frozenRows_apply {mt : Memtable} (h : e∈frozenRows (mt.apply key lsn op)) :
    e=⟨key,op,lsn⟩ ∨ e∈frozenRows mt := by
  rw [mem_frozenRows] at h ⊢
  by_cases hk : e.key=key
  · rw [hk,Memtable.lookup_apply_same] at h
    obtain ⟨k,o,l⟩ := e
    simp_all
  · rw [Memtable.lookup_apply_ne _ _ _ hk] at h
    exact .inr h

theorem Inv.write (h : s.Inv pending) (key : MemKey) (op : MemOp) : (s.write key op).Inv pending where
  backed := h.backed
  prepared := h.prepared
  stored_lt x hx r hr := (h.stored_lt x hx r hr).trans (Nat.lt_succ_self _)
  frozen_lt e he := by
    rcases mem_frozenRows_apply he with rfl | he
    · exact Nat.lt_succ_self _
    · exact (h.frozen_lt e he).trans (Nat.lt_succ_self _)
  newer e he x hx r hr := by
    rcases mem_frozenRows_apply he with rfl | he
    · exact h.stored_lt x hx r hr
    · exact h.newer e he x hx r hr

theorem Inv.flush (h : s.Inv pending) (schema : Schema) (writerId : Uuid) (now : Time)
    (hf : FreshFor s.used fresh (flushBuckets s.memtable)) : (s.flush schema fresh writerId now).Inv pending := by
  unfold Lsm.flush
  split
  · exact h
  have hadds := flushAdds_pending hf h.backed.tree.sound h.newer
  have hid : ∀ x, Known s.ssts pending x → ∀ y ∈ buildPendingSsts fresh s.memtable,
      y.desc.id≠x.desc.id := by
    intro x hx y hy hid
    exact hadds.id_fresh y hy (hid ▸ (h.backed.tree.used x hx).1)
  have hkeeps : Keeps s.rows (putBodies s.rows (buildPendingSsts fresh s.memtable)) s.manifest
      pending := by
    intro x hx
    refine putBodies_other fun y hy hp => hid x hx y hy ?_
    exact id_eq_of_path (path_of_mem_buildPendingSsts hy) (h.backed.stored x hx).path_eq hp
  have hstored : ∀ x ∈ buildPendingSsts fresh s.memtable,
      Stored (putBodies s.rows (buildPendingSsts fresh s.memtable)) x := by
    intro x hx
    refine ⟨putBodies_mem hx fun y hy hp => ?_,path_of_mem_buildPendingSsts hx⟩
    have hxy := id_eq_of_path (path_of_mem_buildPendingSsts hy) (path_of_mem_buildPendingSsts hx) hp
    rw [inj_on_of_nodup_map hadds.nodup hy hx hxy]
  have hm : (flushedManifest s.manifest schema (buildPendingSsts fresh s.memtable) [] writerId
      now).ssts=s.manifest.ssts++(buildPendingSsts fresh s.memtable).map (·.desc) := by
    simp [flushedManifest,Manifest.nextVersion]
  have hb := h.backed.keeps hkeeps
  have hssts := sstsOf_append hm hstored
  rw [hkeeps.sstsOf_eq] at hssts
  refine ⟨hb.flush hm hstored (hkeeps.sstsOf_eq ▸ hadds),h.prepared,?_,?_,?_⟩
  · intro x hx r hr
    rw [ssts,hssts,mem_append] at hx
    rcases hx with hx | hx
    · exact h.stored_lt x hx r hr
    · obtain ⟨b,-,rfl⟩ := mem_map.mp hx
      exact h.frozen_lt r (mem_bucketRows.mp hr).1
  · simp [frozenRows]
  · simp [frozenRows]

theorem prepareLeveled_ok {policy : CompactionPolicy} {rows : RelPath → List WalEntry}
    {m : Manifest} {search : SearchBuild} (h : prepareLeveled policy rows m fresh search = .ok p) :
    ∃ os, p = .ofOutcomes m os search ∧ OnePerBucket os ∧ ∀ o ∈ os, o.Planned rows m (fresh o.bucket) := by
  unfold prepareLeveled at h
  cases ho : bucketOutcomes policy rows m fresh with
  | error e => simp [ho,Except.map] at h
  | ok os =>
    simp only [ho,Except.map,Except.ok.injEq] at h
    obtain ⟨hone,hplan⟩ := bucketOutcomes_spec ho
    exact ⟨os,h.symm,hone,hplan⟩

theorem Inv.prepare (h : s.Inv pending) (policy : CompactionPolicy)
    (hf : FreshFor s.used fresh (s.manifest.ssts.map (·.bucket))) :
    ∃ pending', (s.prepare policy fresh).Inv pending' := by
  unfold Lsm.prepare
  split
  case h_2 => exact ⟨pending,h⟩
  rename_i p hp
  obtain ⟨os,rfl,hone,hplan⟩ := prepareLeveled_ok hp
  have hnew : (PreparedCompaction.ofOutcomes s.manifest os {}).newSsts=os.filterMap (·.output) := by
    simp [PreparedCompaction.ofOutcomes]
  have hkeeps := h.backed.keeps_putBodies hf hplan
  have hb := h.backed.prepare hf hone hplan (subset_append_right _ _)
    (fun o ho => mem_append_left _ (mem_newIds (hplan o ho).bucket_mem)) hkeeps
    (h.backed.stored_putBodies hf hone hplan)
  simp only [hnew]
  refine ⟨os++pending,hb,?_,?_,h.frozen_lt,?_⟩
  · intro p hp
    rcases mem_cons.mp hp with rfl | hp
    · exact ⟨s.manifest,os,rfl,subset_append_left _ _,hone⟩
    · obtain ⟨base,os',rfl,hsub,hone'⟩ := h.prepared p hp
      exact ⟨base,os',rfl,List.Subset.trans hsub (subset_append_right _ _),hone'⟩
  · intro x hx
    rw [ssts,hkeeps.sstsOf_eq] at hx
    exact h.stored_lt x hx
  · intro e he x hx
    rw [ssts,hkeeps.sstsOf_eq] at hx
    exact h.newer e he x hx

theorem Inv.install (h : s.Inv pending) (hp : p∈s.prepared) (writerId : Uuid) (now : Time) :
    (s.install p writerId now).Inv pending := by
  unfold Lsm.install
  split
  case h_2 => exact h
  rename_i m hm
  obtain ⟨base,os,rfl,hos,hone⟩ := h.prepared p hp
  have hrows : ∀ x ∈ sstsOf s.rows m, ∀ r ∈ x.rows, ∃ y ∈ s.ssts, r∈y.rows := by
    intro x hx r hr
    rw [h.backed.installed_ssts hos hm] at hx
    have hready := h.backed.ready_of_install hos hm
    rcases (mem_applyOutcomes h.backed.tree hready).mp hx with hx | ⟨o,ho,hout⟩
    · exact ⟨x,hx.1,hr⟩
    · have hok := h.backed.tree.ok o (hos ho)
      cases hrw : o.rewrite with
      | merge t gc =>
        rw [((hok.merges t gc hrw).output_some x hout).1] at hr
        obtain ⟨y,hy,hry⟩ := mem_mergedRows hr
        exact ⟨y,hready o ho y hy,hry⟩
      | inPlace =>
        obtain ⟨y,z,hmig⟩ := hok.migrates hrw
        obtain rfl := Option.some.inj (hmig.output_eq.symm.trans hout)
        exact ⟨y,hready o ho y (by simp [hmig.inputs_eq]),hmig.rows_eq ▸ hr⟩
  refine ⟨h.backed.install hos hm hone,h.prepared,?_,h.frozen_lt,?_⟩
  · intro x hx r hr
    obtain ⟨y,hy,hry⟩ := hrows x hx r hr
    exact h.stored_lt y hy r hry
  · intro e he x hx r hr
    obtain ⟨y,hy,hry⟩ := hrows x hx r hr
    exact h.newer e he y hy r hry

theorem Reachable.inv (h : Reachable s) : ∃ pending, s.Inv pending := by
  induction h with
  | empty epoch writerId now => exact ⟨[],inv_empty epoch writerId now⟩
  | step _ hs ih =>
    obtain ⟨pending,ih⟩ := ih
    cases hs with
    | write key op => exact ⟨pending,ih.write key op⟩
    | flush schema fresh writerId now hf => exact ⟨pending,ih.flush schema writerId now hf⟩
    | prepare policy fresh hf => exact ih.prepare policy hf
    | install p hp writerId now => exact ⟨pending,ih.install hp writerId now⟩

theorem length_le_one {l : List α} (hnd : l.Nodup) (h : ∀ a ∈ l, ∀ b ∈ l, a=b) : l.length≤1 := by
  match l with
  | [] | [_] => simp
  | a::b::rest =>
    have hab := h a (by simp) b (by simp)
    simp [hab] at hnd

theorem Inv.one_per_level (h : s.Inv pending) (b : Bucket) (level : ℕ) (hl : 1≤level) :
    ((sourcesOf s.manifest b).filter fun d => d.level=level).length≤1 := by
  have hnd : s.manifest.ssts.Nodup := by
    have hids := h.backed.tree.nodup
    rw [sstsOf,map_map] at hids
    exact hids.of_map
  refine length_le_one ((hnd.filter _).filter _) fun d hd d' hd' => ?_
  simp only [mem_filter,decide_eq_true_eq] at hd hd'
  have hx := (mem_inBucket_sstsOf (x := sstAt s.rows d)).mpr ⟨d,hd.1,rfl⟩
  have hy := (mem_inBucket_sstsOf (x := sstAt s.rows d')).mpr ⟨d',hd'.1,rfl⟩
  have hlevel : 1≤(sstAt s.rows d).level := hl.trans_eq hd.2.symm
  have hxy := (h.backed.tree.leveled b).one_per_level _ hx _ hy hlevel (hd.2.trans hd'.2.symm)
  exact congrArg Sst.desc hxy

/-- After any run of flushes, plans and installs: every bucket has one SST a level below the first, shallower
versions of a key are newer, a plan takes every SST down to its target, and an install changes nothing a reader sees,
whether or not it drops tombstones. -/
theorem levels_sound_along_runs {s : Lsm} (h : Reachable s) :
    (∀ b level, 1 ≤ level → ((sourcesOf s.manifest b).filter fun d => d.level = level).length ≤ 1) ∧
    (∀ x ∈ s.ssts, ∀ y ∈ s.ssts, x.desc.bucket = y.desc.bucket → x.desc.level < y.desc.level →
      ∀ r ∈ x.rows, ∀ r' ∈ y.rows, r.key = r'.key → r'.lsn < r.lsn) ∧
    (∀ b policy force plan,planBucketMerge (sourcesOf s.manifest b) policy.baseBytes policy.levelRatio = some plan ∨
        planNodeBucket policy (sourcesOf s.manifest b) force = some plan →
      ∀ d ∈ sourcesOf s.manifest b, d.level ≤ plan.targetLevel → d ∈ plan.inputs) ∧
    (∀ p ∈ s.prepared, ∀ writerId now m, installedManifest s.manifest p writerId now = .ok (some m) →
      ∀ b k, visible (sstsOf s.rows m) b k = visible s.ssts b k) := by
  obtain ⟨pending,hinv⟩ := h.inv
  refine ⟨hinv.one_per_level,?_,?_,?_⟩
  · intro x hx y hy hb hlt r hr r' hr' _
    have hnewer := (hinv.backed.tree.leveled y.desc.bucket).newer_of_lt x ⟨hx,hb⟩ y ⟨hy,rfl⟩ hlt
    exact hnewer.2.2 r hr r' hr'
  · intro b policy force plan hplan d hd hle
    have hcov : plan.Covers (sourcesOf s.manifest b) :=
      hplan.elim planBucketMerge_covers planNodeBucket_covers
    exact (hcov.mem_iff d).mpr ⟨hd,hle⟩
  · intro p hp writerId now m hm b k
    obtain ⟨base,os,rfl,hos,hone⟩ := hinv.prepared p hp
    exact hinv.backed.visible_install hos hm hone b k

def plainPolicy : CompactionPolicy :=
  ⟨8*1024*1024,10,fun _ => true,fun _ => true,fun _ => false,fun _ => false⟩

def numbered (id : Uuid) (_ : Bucket) : NewSst := ⟨id, "-nodes.parquet",100,10,300,none,[],[],[],none⟩

/-- Two nodes are written and flushed, one is deleted and flushed again, and the two SSTs are merged
into level 1, which drops the tombstone. -/
def mergedRun : Lsm :=
  let s := ((empty 1 7 0).write (.node 1) (.upsert [1])).write (.node 2) (.upsert [2])
  let s := s.flush {} (numbered 20) 7 1
  let s := (s.write (.node 1) .tombstone).flush {} (numbered 21) 7 2
  s.prepare plainPolicy (numbered 22)

theorem mergedRun_reachable : Reachable mergedRun := by
  refine .step (.step (.step (.step (.step (.step (.empty 1 7 0) (.write _ (.node 1) (.upsert [1])))
    (.write _ (.node 2) (.upsert [2]))) (.flush _ {} (numbered 20) 7 1 ?_))
    (.write _ (.node 1) .tombstone)) (.flush _ {} (numbered 21) 7 2 ?_))
    (.prepare _ plainPolicy (numbered 22) ?_)
  all_goals exact ⟨by decide +kernel,by decide +kernel⟩

theorem levels_sound_after_merge :
    (mergedRun.prepared.map fun p => (p.newSsts.map (·.rows), p.removedIds)) =
      [([[⟨.node 2, .upsert [2], 2⟩]], [20, 21])] ∧
    ∀ p ∈ mergedRun.prepared, ∀ m, installedManifest mergedRun.manifest p 7 3 = .ok (some m) →
      visible (sstsOf mergedRun.rows m) nodesBucket (.node 1) =
        visible mergedRun.ssts nodesBucket (.node 1) :=
  ⟨by decide +kernel,fun p hp m hm =>
    (levels_sound_along_runs mergedRun_reachable).2.2.2 p hp 7 3 m hm nodesBucket (.node 1)⟩

end Lsm
end NamiDB.Storage
