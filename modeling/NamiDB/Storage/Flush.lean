import NamiDB.Storage.Sst

/-! Flushing a frozen memtable: one SST for the nodes, and for each edge type one SST of its edges by
source and one by destination. -/
namespace NamiDB.Storage
open Lib List

variable {frozen : Memtable} {r : WalEntry} {b : Bucket}

def frozenRows (frozen : Memtable) : List WalEntry :=
  frozen.entries.map fun e => ⟨e.1,e.2.op,e.2.lsn⟩

def bucketRows (frozen : Memtable) (b : Bucket) : List WalEntry :=
  ((frozenRows frozen).filter fun r => b.holds r.key).insertionSort
    fun r r' => sortKey b.kind r.key ≤ sortKey b.kind r'.key

def MemKey.edgeType? : MemKey → Option String
  | .node _ => none
  | .edge t _ _ => some t

def edgeTypesOf (frozen : Memtable) : List String :=
  ((frozenRows frozen).filterMap fun r => r.key.edgeType?).dedup.insertionSort (·≤·)

/-- Nodes of every label share one bucket, whose scope is empty. -/
def nodesBucket : Bucket := ⟨.nodes, ""⟩

def flushBuckets (frozen : Memtable) : List Bucket :=
  (if (frozenRows frozen).any fun r => nodesBucket.holds r.key then [nodesBucket] else []) ++
    (edgeTypesOf frozen).flatMap fun t => [⟨.edgesFwd,t⟩,⟨.edgesInv,t⟩]

/-- New SSTs always go to level 0. -/
def buildPendingSsts (fresh : Bucket → NewSst) (frozen : Memtable) : List Sst :=
  (flushBuckets frozen).map fun b =>
    let rows := bucketRows frozen b
    ⟨sstDescriptor b 0 (fresh b) rows,rows⟩

/-- The manifest a flush commits: everything the WAL held is in the new SSTs. `search` are the bodies
the flush adds to registered search indexes. -/
def flushedManifest (base : Manifest) (schema : Schema) (new : List Sst)
    (search : List SstDescriptor) (writerId : Uuid) (now : Time) : Manifest :=
  let next := base.nextVersion writerId now
  { next with
    schema := schema
    ssts := next.ssts++new.map (·.desc)++search
    walSegments := [] }

theorem mem_frozenRows : r∈frozenRows frozen ↔ frozen.lookup r.key=some ⟨r.lsn,r.op⟩ := by
  unfold frozenRows
  rw [← Option.mem_def,AList.mem_lookup_iff,mem_map]
  constructor
  · rintro ⟨e,he,rfl⟩
    exact he
  · intro h
    exact ⟨_,h,rfl⟩

theorem frozenRows_unique (h : r∈frozenRows frozen) (h' : r'∈frozenRows frozen) (hk : r.key=r'.key) : r=r' := by
  rw [mem_frozenRows] at h h'
  rw [hk,h'] at h
  obtain ⟨key,op,lsn⟩ := r
  obtain ⟨key',op',lsn'⟩ := r'
  simp_all

theorem mem_bucketRows : r∈bucketRows frozen b ↔ r∈frozenRows frozen ∧ b.holds r.key := by
  simp [bucketRows]

theorem mem_flushBuckets : b∈flushBuckets frozen ↔
      (b.kind = .nodes → b.scope = "") ∧ ∃ r ∈ frozenRows frozen, b.holds r.key := by
  obtain ⟨kind,scope⟩ := b
  simp only [flushBuckets,edgeTypesOf,nodesBucket,mem_append,mem_flatMap,
    mem_insertionSort,mem_dedup,mem_filterMap,mem_cons,not_mem_nil,
    or_false,Bucket.mk.injEq,mem_ite_nil_right,any_eq_true]
  constructor
  · rintro (⟨⟨r,hr,hh⟩,rfl,rfl⟩ | ⟨t,⟨r,hr,ht⟩,(⟨rfl,rfl⟩ | ⟨rfl,rfl⟩)⟩)
    · exact ⟨fun _ => rfl,r,hr,hh⟩
    all_goals
      refine ⟨by simp,r,hr,?_⟩
      cases hk : r.key with
      | node id => simp [hk,MemKey.edgeType?] at ht
      | edge t src dst =>
        simp [hk,MemKey.edgeType?] at ht
        simp [Bucket.holds,ht]
  · rintro ⟨hs,r,hr,hh⟩
    cases hk : r.key with
    | node id =>
      simp only [hk,Bucket.holds,beq_iff_eq] at hh
      subst hh
      exact .inl ⟨⟨r,hr,by simp [hk,Bucket.holds]⟩,rfl,hs rfl⟩
    | edge t src dst =>
      simp only [hk,Bucket.holds,Bool.and_eq_true,beq_iff_eq] at hh
      obtain ⟨hkind,rfl⟩ := hh
      refine .inr ⟨scope,⟨r,hr,by simp [hk,MemKey.edgeType?]⟩,?_⟩
      simpa using hkind

theorem nodup_flushBuckets (frozen : Memtable) : (flushBuckets frozen).Nodup := by
  have hd : (edgeTypesOf frozen).Nodup :=
    (perm_insertionSort _ _).nodup_iff.mpr (nodup_dedup _)
  refine nodup_append.mpr ⟨?_,?_,?_⟩
  · split <;> simp
  · refine nodup_flatMap.mpr ⟨by simp,hd.imp ?_⟩
    intro t t' hne
    simp [disjoint_left,hne]
  · intro b hb b' hb' heq
    simp only [nodesBucket] at hb
    simp only [mem_flatMap,mem_cons,not_mem_nil,or_false] at hb'
    obtain ⟨t,-,rfl | rfl⟩ := hb' <;> simp_all

theorem sound_of_mem_buildPendingSsts (h : x∈buildPendingSsts fresh frozen) : x.Sound := by
  obtain ⟨b,hb,rfl⟩ := mem_map.mp h
  obtain ⟨-,r,hr,hh⟩ := mem_flushBuckets.mp hb
  refine sound_sstDescriptor 0 (fresh b) ?_ ?_ ?_
  · exact ne_nil_of_mem (mem_bucketRows.mpr ⟨hr,hh⟩)
  · exact fun r hr => (mem_bucketRows.mp hr).2
  · exact fun r hr r' hr' => frozenRows_unique (mem_bucketRows.mp hr).1 (mem_bucketRows.mp hr').1

end NamiDB.Storage
